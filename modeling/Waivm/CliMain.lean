import Waivm.AssemblerOutput
import Waivm.RuntimeError

/-!
# The whole command line (`cli.c`)

`wai_cli_main` with all of its commands: what it writes to the two streams, its exit status, and
the files that it leaves. The run of a program may not end, so a call of `waivm` is a relation.
A division that the processor refuses kills the process, and an access outside of an array or through
`NULL` would be another end. An overflow of the C arithmetic is not one: it has its own module.

Results:
1. `cli_stays_in_bounds`: no access is out of bounds, and a call is killed only by a division.
2. `cli_reports`: the exit status says whether something was written to `stderr`, and only `asm` changes
   a file.
3. `run_reports`: how `run` ends on a file, whatever is in it.
-/

namespace Waivm

open CString Printf
open LittleEndian (Byte)
open X86 (Reg Val)
open Machine (Outcome ReachesIn Reaches Ends)

/-! ## What a call finds, and how it ends -/

/-- The files, `stdin`, the allocations that succeed (`breakpoints` for the table of the debugger), how
writing goes, and the registers that the engine is called with. -/
structure Host where
  files : FileSystem
  stdin : Text
  load : LoadAlloc
  breakpoints : Bool
  write : WriteIo
  regs : Reg → Val Object

/-- How a call ends. -/
inductive ProcessEnd
  | exited (status : CliStatus) (stdout stderr : Text) (files : FileSystem)
  /-- `SIGFPE` -/
  | killed
  /-- An access outside of an array or through `NULL`, or a step that the engine's listing does not define. -/
  | outOfBounds

namespace Host

/-- `return CLI_OK` -/
def succeeds (host : Host) (stdout : Text) : ProcessEnd :=
  .exited .ok stdout [] host.files

/-- `return CLI_ERR` -/
def fails (host : Host) (stdout stderr : Text) : ProcessEnd :=
  .exited .err stdout stderr host.files

end Host

/-- The end of a process in which the machine fails. -/
def ProcessEnd.ofFault : Fault → ProcessEnd
  | .divide => .killed
  | .access => .outOfBounds

/-! ## Messages -/

/-- `print_usage` -/
def printUsage : Text :=
  ("waivm v6\n" ++
    "\n" ++
    "Usage:\n" ++
    "  waivm run <file.wai|file.waibc>\n" ++
    "  waivm asm <input.wai> -o <output.waibc>\n" ++
    "  waivm dis <file.wai|file.waibc>\n" ++
    "  waivm debug <file.wai|file.waibc>\n" ++
    "  waivm trace <file.wai|file.waibc>\n" ++
    "  waivm verify <file.wai|file.waibc>\n" ++
    "  waivm info <file.waibc>\n" ++
    "  waivm help\n").toList

/-- A message that ends in the text of an error code. -/
def errorMessage (what : String) (status : WaiErrorCode) : Text :=
  what.toList ++ (waiErrorString status).toList ++ ['\n']

/-- The message about a source that is refused. -/
def assembleMessage (assembly : WaiAssemblerResult) : Text :=
  if 0 < assembly.line then
    "assemble error:".toList ++ unsigned 10 assembly.line ++ ':' :: ' ' :: assembly.message ++ ['\n']
  else "assemble error: ".toList ++ assembly.message ++ ['\n']

/-- The message of `command_run` about a run that failed. -/
def RuntimeError.render (report : RuntimeError) : Text :=
  "runtime error at ip=".toList ++ unsigned 10 report.ip.toNat ++
    ':' :: ' ' :: (waiErrorString report.error).toList ++ ['\n']

/-- The message of `command_verify` about a program that is refused. -/
def verifyMessage (status : WaiErrorCode) (report : WaiVerifyReport) : Text :=
  "verify error at ip=".toList ++ unsigned 10 report.ip ++
    ':' :: ' ' :: (waiErrorString status).toList ++ ' ' :: '(' :: report.message.toList ++ [')', '\n']

/-- What `wai_vm_emit_print` has written. -/
def printedText (values : List WaiValue) : Text :=
  values.flatMap fun value => signed value.toInt ++ ['\n']

/-- What `command_info` writes about a header. -/
def infoText (info : WaiBytecodeInfo) : Text :=
  "magic: WAI0\n".toList ++
  "version: ".toList ++ unsigned 10 info.version.toNat ++ ['\n'] ++
  "header_size: ".toList ++ unsigned 10 info.headerSize.toNat ++ ['\n'] ++
  "instruction_size: ".toList ++ unsigned 10 info.instructionSize.toNat ++ ['\n'] ++
  "register_count: ".toList ++ unsigned 10 info.registerCount.toNat ++ ['\n'] ++
  "flags: 0x".toList ++ zeroFilled 8 (unsigned 16 info.flags.toNat) ++ ['\n'] ++
  "code_count: ".toList ++ unsigned 10 info.codeCount.toNat ++ ['\n'] ++
  "data_size: ".toList ++ unsigned 10 info.dataSize.toNat ++ ['\n']

/-! ## Commands -/

section Commands
variable (host : Host)

/-- What `load_program_auto` writes to `stderr`. -/
def loadMessage (path : Text) : Text :=
  if waiFileHasWaibcMagic (host.files path) then
    errorMessage "bytecode error: "
      (waiBytecodeReadFile host.load.code (host.files path) waiProgramInit (some zeroInfo)).1
  else assembleMessage (waiAssembleFile host.load.assembler (host.files path) waiProgramInit).1

/-- A command that loads a program first. `program` and `info` are not initialised; nothing reads
them before they are set. -/
def withProgram (path : Text) (command : OwnedProgram → ProcessEnd → Prop) (e : ProcessEnd) : Prop :=
  match loadProgramAuto host.load host.files path waiProgramInit (some zeroInfo) with
  | (.ok, program, _) => command program e
  | (.err, _, _) => e = host.fails [] (loadMessage host path)

/-- `command_run` behind the load, when the engine has ended. -/
def runEnd : AsmEnd → Option ProcessEnd
  | .returned c => (waiVmExecute c).map fun
    | .ok => host.succeeds (printedText c.mem.emitted)
    | execution => host.fails (printedText c.mem.emitted) (RuntimeError.render ⟨c.mem.ip, execution⟩)
  | .trapped .divide => some .killed
  | .trapped _ => some .outOfBounds

/-- `command_run` -/
def commandRun (path : Text) : ProcessEnd → Prop :=
  withProgram host path fun program e => ∃ r,
    Ends asmStep (asmEntry host.regs program.initialVm) r ∧ runEnd host r = some e

/-- `command_asm` -/
def commandAsmEnd (argv : List Text) : ProcessEnd :=
  match argv with
  | [_, _, input, option, output] =>
    if option ≠ ['-', 'o'] then
      host.fails [] "error: asm expects: waivm asm <input.wai> -o <output.waibc>\n".toList
    else
      let assembly := waiAssembleFile host.load.assembler (host.files input) waiProgramInit
      if assembly.1.error ≠ .ok then host.fails [] (assembleMessage assembly.1)
      else
        match waiBytecodeWriteFile host.write (host.files output) assembly.2 with
        | (.ok, content) => .exited .ok [] [] (Function.update host.files output content)
        | (status, content) => .exited .err [] (errorMessage "bytecode write error: " status)
            (Function.update host.files output content)
  | _ => host.fails [] "error: asm expects: waivm asm <input.wai> -o <output.waibc>\n".toList

/-- `command_dis` -/
def commandDis (path : Text) : ProcessEnd → Prop :=
  withProgram host path fun program e =>
    e = host.succeeds (waiDisassembleProgram program.toWaiProgram)

/-- The text of what the debugger writes. -/
def debuggerText (out : List DebuggerLine) : Text :=
  out.flatMap DebuggerLine.render

/-- `command_debug` behind the load, when the debugger has ended. -/
def debugEnd : DebuggerEnd → ProcessEnd
  | .returned .ok out => host.succeeds (debuggerText out)
  | .returned status out => host.fails (debuggerText out) (errorMessage "debugger error: " status)
  | .fault f => .ofFault f

/-- `command_debug` -/
def commandDebug (path : Text) : ProcessEnd → Prop :=
  withProgram host path fun program e => ∃ r,
    WaiDebuggerRun program host.breakpoints host.stdin r ∧ debugEnd host r = e

/-- `command_verify` -/
def commandVerify (path : Text) : ProcessEnd → Prop :=
  withProgram host path fun program e => e =
    match waiVerifyProgram program.toWaiProgram with
    | (.ok, report) =>
      host.succeeds ("verify: ok - ".toList ++ report.message.toList ++ ['\n'])
    | (status, report) => host.fails [] (verifyMessage status report)

/-- The text of a trace. -/
def traceText (lines : List TraceLine) : Text :=
  lines.flatMap fun line => line.render.toList

/-- `command_trace` behind the load, when the trace has ended. -/
def traceEnd : TraceEnd → ProcessEnd
  | .returned .ok lines => host.succeeds (traceText lines)
  | .returned status lines => host.fails (traceText lines) (errorMessage "trace error: " status)
  | .fault f => .ofFault f

/-- `command_trace` -/
def commandTrace (path : Text) : ProcessEnd → Prop :=
  withProgram host path fun program e => ∃ r,
    Ends (traceIteration program) (traceStart program) r ∧ traceEnd host r = e

/-- `command_info` -/
def commandInfo (path : Text) (e : ProcessEnd) : Prop :=
  e = match waiBytecodeReadInfo (host.files path) zeroInfo with
    | (.ok, info) => host.succeeds (infoText info)
    | (status, _) => host.fails [] (errorMessage "info error: " status)

/-- A command that expects one file. -/
def oneFile (arguments : List Text) (complaint : Text) (command : Text → ProcessEnd → Prop)
    (e : ProcessEnd) : Prop :=
  match arguments with
  | [path] => command path e
  | _ => e = host.fails [] complaint

/-- `wai_cli_main` -/
def waiCliMain (argv : List Text) (e : ProcessEnd) : Prop :=
  match argv with
  | [] | [_] => e = host.succeeds printUsage
  | _ :: command :: arguments =>
    if command = ['h', 'e', 'l', 'p'] ∨ command = ['-', '-', 'h', 'e', 'l', 'p'] ∨
        command = ['-', 'h'] then
      e = host.succeeds printUsage
    else if command = ['r', 'u', 'n'] then
      oneFile host arguments ("error: run expects exactly one input file\n".toList ++ printUsage)
        (commandRun host) e
    else if command = ['a', 's', 'm'] then e = commandAsmEnd host argv
    else if command = ['d', 'i', 's'] then
      oneFile host arguments "error: dis expects exactly one input file\n".toList (commandDis host) e
    else if command = ['d', 'e', 'b', 'u', 'g'] then
      oneFile host arguments "error: debug expects exactly one input file\n".toList
        (commandDebug host) e
    else if command = ['t', 'r', 'a', 'c', 'e'] then
      oneFile host arguments "error: trace expects exactly one input file\n".toList
        (commandTrace host) e
    else if command = ['v', 'e', 'r', 'i', 'f', 'y'] then
      oneFile host arguments "error: verify expects exactly one input file\n".toList
        (commandVerify host) e
    else if command = ['i', 'n', 'f', 'o'] then
      oneFile host arguments "error: info expects exactly one bytecode file\n".toList
        (commandInfo host) e
    else e = host.fails [] ("error: unknown command '".toList ++ command ++ ['\'', '\n'] ++ printUsage)

end Commands

/-! ## 1. Accesses -/

/-- A run of the program comes to a division of `INT64_MIN` by `-1`. -/
def ReachesDivision (program : OwnedProgram) : Prop :=
  ∃ vm, StepReach program.initialVm vm ∧ DividesMinByMinusOne vm

section Faults
variable {program : OwnedProgram} {vm : WaiVm} {f : Fault} {input : Text} {host : Host}
  {path : Text} {argv : List Text} {e : ProcessEnd}

theorem divides_of_trapped {regs : Reg → Val Object} {t : X86.Trap}
    (h : Ends asmStep (asmEntry regs program.initialVm) (.trapped t)) :
    t = .divide ∧ ReachesDivision program := by
  cases hc : program.code with
  | none => exact absurd h ((null_division hc (program.count_eq_zero hc) .refl).2.2 regs t)
  | some code =>
    have hlen : code.length ≤ maxInstructions := program.count_eq code hc ▸ program.count_le
    have hinit := MachineInvariant.init code
    rw [program.initialVm_eq hc] at h
    obtain ⟨vm, hr, hdivides⟩ := (asm_trap_iff hlen hinit regs).mp ⟨t, h⟩
    exact ⟨asm_trap hlen hinit h, vm, program.initialVm_eq hc ▸ hr, hdivides⟩

theorem codeCount_of_reach (h : StepReach program.initialVm vm) :
    vm.codeCount = BitVec.ofNat 64 program.count := by
  cases hc : program.code with
  | none =>
    obtain ⟨rfl, _⟩ := null_division hc (program.count_eq_zero hc) h
    rfl
  | some code =>
    rw [program.initialVm_eq hc] at h
    obtain ⟨d, hinv⟩ := invariant_reach (program.length_lt hc) h
    rw [hinv.count_eq, program.count_eq code hc]

end Faults

/-! ## 2. The cases of a call -/

/-- What a call of `waivm` comes to. -/
inductive CliCall (host : Host) (e : ProcessEnd) : List Text → Prop
  | usage {argv : List Text} : e = host.succeeds printUsage → CliCall host e argv
  | refused {argv : List Text} {complaint : Text} :
      e = host.fails [] complaint → complaint ≠ [] → CliCall host e argv
  | run {name path : Text} : commandRun host path e → CliCall host e [name, ['r', 'u', 'n'], path]
  | asm {name : Text} {arguments : List Text} :
      e = commandAsmEnd host (name :: ['a', 's', 'm'] :: arguments) →
      CliCall host e (name :: ['a', 's', 'm'] :: arguments)
  | dis {name path : Text} : commandDis host path e → CliCall host e [name, ['d', 'i', 's'], path]
  | debug {name path : Text} :
      commandDebug host path e → CliCall host e [name, ['d', 'e', 'b', 'u', 'g'], path]
  | trace {name path : Text} :
      commandTrace host path e → CliCall host e [name, ['t', 'r', 'a', 'c', 'e'], path]
  | verify {name path : Text} :
      commandVerify host path e → CliCall host e [name, ['v', 'e', 'r', 'i', 'f', 'y'], path]
  | info {name path : Text} :
      commandInfo host path e → CliCall host e [name, ['i', 'n', 'f', 'o'], path]

section Calls
variable {host : Host} {path : Text} {argv : List Text} {e : ProcessEnd}

/-- A command for one file gets it, or it is refused. -/
theorem oneFile_cases {arguments : List Text} {complaint : Text}
    {command : Text → ProcessEnd → Prop} (h : oneFile host arguments complaint command e) :
    (∃ path, arguments = [path] ∧ command path e) ∨ e = host.fails [] complaint := by
  unfold oneFile at h
  split at h
  · exact .inl ⟨_, rfl, h⟩
  · exact .inr h

/-- The list of what a call comes to is complete. -/
theorem cli_cases (h : waiCliMain host argv e) : CliCall host e argv := by
  unfold waiCliMain at h
  split at h
  · exact .usage h
  · exact .usage h
  split at h
  · exact .usage h
  split at h
  · next hcommand =>
    subst hcommand
    rcases oneFile_cases h with ⟨path, rfl, hrun⟩ | hrefused
    · exact .run hrun
    · exact .refused hrefused (by decide)
  split at h
  · next hcommand =>
    subst hcommand
    exact .asm h
  split at h
  · next hcommand =>
    subst hcommand
    rcases oneFile_cases h with ⟨path, rfl, hdis⟩ | hrefused
    · exact .dis hdis
    · exact .refused hrefused (by decide)
  split at h
  · next hcommand =>
    subst hcommand
    rcases oneFile_cases h with ⟨path, rfl, hdebug⟩ | hrefused
    · exact .debug hdebug
    · exact .refused hrefused (by decide)
  split at h
  · next hcommand =>
    subst hcommand
    rcases oneFile_cases h with ⟨path, rfl, htrace⟩ | hrefused
    · exact .trace htrace
    · exact .refused hrefused (by decide)
  split at h
  · next hcommand =>
    subst hcommand
    rcases oneFile_cases h with ⟨path, rfl, hverify⟩ | hrefused
    · exact .verify hverify
    · exact .refused hrefused (by decide)
  split at h
  · next hcommand =>
    subst hcommand
    rcases oneFile_cases h with ⟨path, rfl, hinfo⟩ | hrefused
    · exact .info hinfo
    · exact .refused hrefused (by decide)
  · exact .refused h (by simp)

/-- A command that loads a program has one, or it ends with the message about the file. -/
theorem withProgram_cases {command : OwnedProgram → ProcessEnd → Prop}
    (h : withProgram host path command e) :
    (∃ program info, loadProgramAuto host.load host.files path waiProgramInit (some zeroInfo) =
        (.ok, program, info) ∧ command program e) ∨
      e = host.fails [] (loadMessage host path) := by
  unfold withProgram at h
  split at h
  · next program info hload => exact .inl ⟨program, info, hload, h⟩
  · exact .inr h

theorem message_ne_nil (front back : Text) (c : Char) : front ++ c :: back ≠ [] :=
  List.append_ne_nil_of_right_ne_nil front (List.cons_ne_nil c back)

theorem errorMessage_ne_nil (what : String) (status : WaiErrorCode) : errorMessage what status ≠ [] :=
  message_ne_nil _ _ _

theorem assembleMessage_ne_nil (assembly : WaiAssemblerResult) : assembleMessage assembly ≠ [] := by
  unfold assembleMessage
  split
  · exact message_ne_nil _ _ _
  · exact message_ne_nil _ _ _

theorem loadMessage_ne_nil (host : Host) (path : Text) : loadMessage host path ≠ [] := by
  unfold loadMessage
  split
  · exact errorMessage_ne_nil _ _
  · exact assembleMessage_ne_nil _

/-- A call that leaves the files alone succeeds and is silent on `stderr`, or it fails and says why. -/
inductive Reported (host : Host) : ProcessEnd → Prop
  | succeeds (stdout : Text) : Reported host (host.succeeds stdout)
  | fails (stdout : Text) {stderr : Text} : stderr ≠ [] → Reported host (host.fails stdout stderr)

/-- `asm` writes no file but its output, which it opens when the source is assembled and valid. -/
structure AsmWrites (host : Host) (argv : List Text) (files : FileSystem) : Prop where
  written : files ≠ host.files → ∃ name command input output content program,
    argv = [name, command, input, ['-', 'o'], output] ∧ host.files input = some content ∧
    (waiAssembleSource host.load.assembler (textOf content)).1.error = .ok ∧
    (waiAssembleSource host.load.assembler (textOf content)).2 = program ∧
    validateProgram program = .ok ∧ ∀ path ≠ output, files path = host.files path

/-- `command_asm`, as a whole and without its messages. -/
theorem commandAsm_end (host : Host) (argv : List Text) :
    ∃ stderr, commandAsmEnd host argv =
        .exited (commandAsm host.load.assembler host.write host.files argv).1 [] stderr
          (commandAsm host.load.assembler host.write host.files argv).2 ∧
      ((commandAsm host.load.assembler host.write host.files argv).1 = .err ↔ stderr ≠ []) := by
  have hrefused : ∀ {stderr}, stderr ≠ [] → (CliStatus.err = .err ↔ stderr ≠ ([] : Text)) :=
    fun h => ⟨fun _ => h, fun _ => rfl⟩
  have haccepted : CliStatus.ok = .err ↔ ([] : Text) ≠ [] := ⟨nofun, fun h => absurd rfl h⟩
  unfold commandAsmEnd
  split
  · next input option output =>
    rw [commandAsm]
    by_cases hoption : option ≠ ['-', 'o']
    · rw [if_pos hoption, if_pos hoption]
      exact ⟨_, rfl, hrefused (by decide)⟩
    rw [if_neg hoption, if_neg hoption]
    simp only
    split
    · exact ⟨_, rfl, hrefused (assembleMessage_ne_nil _)⟩
    · generalize waiBytecodeWriteFile host.write (host.files output) _ = written
      obtain ⟨status, content⟩ := written
      cases status <;>
        first
          | exact ⟨_, rfl, haccepted⟩
          | exact ⟨_, rfl, hrefused (errorMessage_ne_nil _ _)⟩
  · next hother =>
    have hasm : commandAsm host.load.assembler host.write host.files argv = (.err, host.files) := by
      unfold commandAsm
      split
      · exact absurd rfl (hother _ _ _ _ _)
      · rfl
    rw [hasm]
    exact ⟨_, rfl, hrefused (by decide)⟩

theorem asm_writes (host : Host) (argv : List Text) :
    AsmWrites host argv (commandAsm host.load.assembler host.write host.files argv).2 := by
  refine ⟨fun hchanged => ?_⟩
  unfold commandAsm at hchanged ⊢
  split at hchanged
  · next name command input option output =>
    split at hchanged
    · exact absurd rfl hchanged
    next hoption =>
    simp only at hchanged ⊢
    rw [if_neg hoption]
    split at hchanged
    · exact absurd rfl hchanged
    next hassembled =>
    rw [if_neg hassembled]
    obtain ⟨content, hcontent, hok, hfile⟩ := assembleFile_ok (not_not.mp hassembled)
    rw [hfile] at hchanged ⊢
    refine ⟨name, command, input, output, content, _, by rw [not_not.mp hoption], hcontent, hok, rfl,
      ?_, fun path hpath => ?_⟩
    · -- an invalid program is refused before the file is opened
      by_contra hinvalid
      rw [write_refused hinvalid] at hchanged
      generalize validateProgram _ = status at hchanged hinvalid
      cases status <;>
        first
          | exact hinvalid rfl
          | exact hchanged (Function.update_eq_self _ _)
    · generalize waiBytecodeWriteFile host.write (host.files output) _ = written
      obtain ⟨status, written⟩ := written
      cases status <;> exact Function.update_of_ne hpath _ _
  · exact absurd rfl hchanged

theorem reported_verify {program : OwnedProgram} {e : ProcessEnd}
    (h : e = match waiVerifyProgram program.toWaiProgram with
      | (.ok, report) => host.succeeds ("verify: ok - ".toList ++ report.message.toList ++ ['\n'])
      | (status, report) => host.fails [] (verifyMessage status report)) : Reported host e := by
  rw [h]
  split
  · exact .succeeds _
  · exact .fails _ (message_ne_nil _ _ _)

theorem reported_info {e : ProcessEnd} (h : commandInfo host path e) : Reported host e := by
  unfold commandInfo at h
  rw [h]
  split
  · exact .succeeds _
  · exact .fails _ (errorMessage_ne_nil _ _)

theorem reported_run {r : AsmEnd} {e : ProcessEnd} (h : runEnd host r = some e) :
    Reported host e ∨ ∃ t, r = .trapped t ∧ e = if t = .divide then .killed else .outOfBounds := by
  cases r with
  | trapped t =>
    refine .inr ⟨t, rfl, ?_⟩
    cases t <;> cases h <;> rfl
  | returned c =>
    refine .inl ?_
    obtain ⟨status, _, rfl⟩ := Option.map_eq_some_iff.mp h
    cases status <;> first | exact .succeeds _ | exact .fails _ (message_ne_nil _ _ _)

theorem reported_debug (status : WaiErrorCode) (out : List DebuggerLine) :
    Reported host (debugEnd host (.returned status out)) := by
  cases status <;> first | exact .succeeds _ | exact .fails _ (errorMessage_ne_nil _ _)

theorem reported_trace (status : WaiErrorCode) (lines : List TraceLine) :
    Reported host (traceEnd host (.returned status lines)) := by
  cases status <;> first | exact .succeeds _ | exact .fails _ (errorMessage_ne_nil _ _)

/-- The exit status says whether something was written to `stderr`, and only `asm` changes a file: its
output, when the source is assembled and valid. -/
theorem cli_reports (host : Host) (argv : List Text) {status : CliStatus} {stdout stderr : Text}
    {files : FileSystem} (h : waiCliMain host argv (.exited status stdout stderr files)) :
    (status = .err ↔ stderr ≠ []) ∧ AsmWrites host argv files := by
  have hsame : Reported host (.exited status stdout stderr files) →
      (status = .err ↔ stderr ≠ []) ∧ AsmWrites host argv files := by
    intro hreported
    cases hreported with
    | succeeds => exact ⟨⟨nofun, fun hne => absurd rfl hne⟩, ⟨absurd rfl⟩⟩
    | fails _ hne => exact ⟨⟨fun _ => hne, fun _ => rfl⟩, ⟨absurd rfl⟩⟩
  have hrefused : ∀ path, ProcessEnd.exited status stdout stderr files =
      host.fails [] (loadMessage host path) → Reported host (.exited status stdout stderr files) :=
    fun path he => he ▸ .fails _ (loadMessage_ne_nil host path)
  cases cli_cases h with
  | usage he => exact hsame (he ▸ .succeeds _)
  | refused he hne => exact hsame (he ▸ .fails _ hne)
  | @asm name arguments he =>
    obtain ⟨_, hend, hstatus⟩ := commandAsm_end host (name :: ['a', 's', 'm'] :: arguments)
    have hwrites := asm_writes host (name :: ['a', 's', 'm'] :: arguments)
    cases he.trans hend
    exact ⟨hstatus, hwrites⟩
  | info he => exact hsame (reported_info he)
  | dis he =>
    rcases withProgram_cases he with ⟨program, info, hload, he⟩ | he
    · exact hsame (he ▸ .succeeds _)
    · exact hsame (hrefused _ he)
  | verify he =>
    rcases withProgram_cases he with ⟨program, info, hload, he⟩ | he
    · exact hsame (reported_verify he)
    · exact hsame (hrefused _ he)
  | run he =>
    rcases withProgram_cases he with ⟨program, info, hload, r, hr, he⟩ | he
    · rcases reported_run he with hreport | ⟨t, _, he⟩
      · exact hsame hreport
      · split at he <;> cases he
    · exact hsame (hrefused _ he)
  | debug he =>
    rcases withProgram_cases he with ⟨program, info, hload, r, hr, he⟩ | he
    · cases r with
      | returned status out => exact hsame (he ▸ reported_debug status out)
      | fault f => cases f <;> cases he
    · exact hsame (hrefused _ he)
  | trace he =>
    rcases withProgram_cases he with ⟨program, info, hload, r, hr, he⟩ | he
    · cases r with
      | returned status lines => exact hsame (he ▸ reported_trace status lines)
      | fault f => cases f <;> cases he
    · exact hsame (hrefused _ he)

end Calls

/-- A directory with the one file `s`, and nothing that fails. -/
def sourceHost (content : List Byte) : Host where
  files := onlySource content
  stdin := []
  load := .unlimited
  breakpoints := true
  write := .perfect 100
  regs := (fun _ => .undef)

/-- `waivm asm s -o b` on the source `halt` succeeds, so nothing is on `stderr`. -/
theorem cli_reports_asm :
    waiCliMain (sourceHost haltSource) asmArguments (.exited .ok [] [] (afterAsm haltSource)) := by
  have hstatus : (commandAsm .unlimited (.perfect 100) (onlySource haltSource) asmArguments).1 =
      .ok := by decide +kernel
  obtain ⟨stderr, hend, _⟩ := commandAsm_end (sourceHost haltSource) asmArguments
  have hcall : waiCliMain (sourceHost haltSource) asmArguments
      (.exited .ok [] stderr (afterAsm haltSource)) := hstatus ▸ hend.symm
  have hquiet := (cli_reports _ _ hcall).1
  have hnil : stderr = [] := by
    by_contra hne
    cases hquiet.mpr hne
  exact hnil ▸ hcall

/-! ## 3. What `run` reports -/

/-- The errors that a loaded program can end with. -/
def runErrors : List WaiErrorCode :=
  [.errIpOutOfBounds, .errDivZero, .errBadJump, .errMemoryOob, .errStackOverflow, .errStackUnderflow,
    .errBadShift]

section Reports
variable {load : LoadAlloc} {fs : FileSystem} {host : Host} {path : Text} {program : OwnedProgram}
  {info : Option WaiBytecodeInfo} {ins : WaiInstruction}

/-- What the reader returns is valid. -/
theorem read_valid {alloc : Nat → Bool} {file : Option (List Byte)} {out : OwnedProgram}
    {outInfo : Option WaiBytecodeInfo}
    (h : waiBytecodeReadFile alloc file out outInfo = (.ok, program, info)) :
    validateProgram program = .ok := by
  unfold waiBytecodeReadFile at h
  split at h
  · cases h
  split at h
  · cases h
  cases hdecode : decodeHeader (List.take waiBytecodeHeaderSize _) with
  | error status =>
    rw [hdecode] at h
    cases h
    exact absurd hdecode decodeHeader_ne_ok
  | ok header =>
    rw [hdecode] at h
    simp only at h
    split at h
    · cases h
    split at h
    · cases h
    split at h
    · cases h
    split at h
    · next hvalid =>
      cases h
      exact hvalid
    · next hinvalid => exact absurd (congrArg Prod.fst h) hinvalid

/-- Every instruction of a program that was loaded is known, with registers that exist: bytecode is
validated, and the assembler emits no other. -/
theorem loaded_known
    (hload : loadProgramAuto load fs path waiProgramInit (some zeroInfo) = (.ok, program, info))
    (hins : ins ∈ program.instructions) :
    ins.op ≠ .invalid ∧ (ins.op ∈ WaiOpcode.usesA → validReg ins.a = true) ∧
      (ins.op ∈ WaiOpcode.usesB → validReg ins.b = true) := by
  unfold loadProgramAuto at hload
  split at hload
  · split at hload
    · next program' info' hread =>
      cases hload
      have hwell := (validateProgram_ok_iff program).mp (read_valid hread) ins hins
      exact ⟨hwell.opcode_known, hwell.register_a, hwell.register_b⟩
    · cases hload
  · simp only at hload
    split at hload
    · cases hload
    · next hassembled =>
      cases hload
      obtain ⟨content, _, hok, hfile⟩ := assembleFile_ok (not_not.mp hassembled)
      rw [hfile] at hins
      obtain ⟨items, hassembled⟩ := assembled_of_accepted hok
      have hemitted := hassembled.emitted ins hins
      exact ⟨hemitted.opcode_known, hemitted.register_a, hemitted.register_b⟩

/-- What a loaded program fails with. -/
theorem failed_error {regs : Reg → Val Object} {vm : WaiVm} {status : WaiErrorCode}
    (hload : loadProgramAuto load fs path waiProgramInit (some zeroInfo) = (.ok, program, info))
    (h : FailsAt regs program vm status) : status ∈ runErrors := by
  obtain ⟨n, vm', _, hreach, hdone⟩ := fails_cases h
  have h0 := not_halted_of_failed hdone h.1
  rcases reached_cases hreach h0 with ⟨hip, _⟩ | ⟨d, ins, hinv, hget, hcur, hlt⟩
  · rw [instructionStep_past_end h0 hip] at hdone
    cases hdone
    decide
  · have hlen : program.instructions.length < 2 ^ 64 :=
      Nat.lt_of_le_of_lt program.length_le maxInstructions_lt
    rw [instructionStep_eq hinv.code_eq] at hdone
    rcases engineStep_done hlen hinv hdone with ⟨hok, _⟩ | ⟨_, _, _, hstep⟩
    · exact absurd hok h.1
    obtain ⟨_, he⟩ := current_step hlen hinv hcur
    have heffect : Effect vm.fetched ins status vm' :=
      switch_effect (invariant_fetched hinv hlt).sp_le (he.symm.trans hstep)
    obtain ⟨hknown, ha, hb⟩ := loaded_known hload (List.mem_of_getElem? hget)
    cases heffect with
    | badRegister hbad =>
      rcases hbad with ⟨huses, hbad⟩ | ⟨huses, hbad⟩
      · cases (ha huses).symm.trans hbad
      · cases (hb huses).symm.trans hbad
    | badOpcode hbad => exact absurd hbad hknown
    | divZero | badShift | badJump | badReturn | memoryOob | stackOverflow | stackUnderflow => decide
    | _ => exact absurd rfl h.1

/-- An engine that returns has finished after some number of instructions. -/
theorem finishes_of_ends {regs : Reg → Val Object} {c : AsmState} {status : WaiErrorCode}
    (hends : Ends asmStep (asmEntry regs program.initialVm) (.returned c))
    (hcode : waiVmExecute c = some status) :
    ∃ n, Finishes regs program.initialVm n status c.mem := by
  obtain ⟨n, vm, status', hreach, hdone⟩ := returned_cases (initial_runnable program) hends
  have hfinishes : Finishes regs program.initialVm n status' c.mem :=
    (finishes_iff (initial_runnable program)).mpr ⟨vm, hreach, hdone⟩
  obtain ⟨c', hends', hcode', _⟩ := finishes_ends hfinishes
  cases Machine.ends_unique hends hends'
  cases hcode.symm.trans hcode'
  exact ⟨n, hfinishes⟩

/-- An instruction that fails prints nothing. -/
theorem failed_emitted {vm vm' : WaiVm} {n : Nat} {status : WaiErrorCode}
    (hreach : ReachesIn instructionStep n program.initialVm vm)
    (hdone : instructionStep vm = .done (.stopped status vm')) (hne : status ≠ .ok) :
    vm'.emitted = vm.emitted := by
  have h0 := not_halted_of_failed hdone hne
  rcases reached_cases hreach h0 with ⟨hip, _⟩ | ⟨d, ins, hinv, hget, hcur, hlt⟩
  · rw [instructionStep_past_end h0 hip] at hdone
    cases hdone
    rfl
  · have hlen : program.instructions.length < 2 ^ 64 :=
      Nat.lt_of_le_of_lt program.length_le maxInstructions_lt
    rw [instructionStep_eq hinv.code_eq] at hdone
    rcases engineStep_done hlen hinv hdone with ⟨hok, _⟩ | ⟨_, _, _, hstep⟩
    · exact absurd hok hne
    obtain ⟨_, he⟩ := current_step hlen hinv hcur
    have heffect : Effect vm.fetched ins status vm' :=
      switch_effect (invariant_fetched hinv hlt).sp_le (he.symm.trans hstep)
    cases heffect with
    | badRegister | divZero | badShift | badJump | badReturn | memoryOob | stackOverflow
    | stackUnderflow | badOpcode => rfl
    | _ => exact absurd rfl hne

/-- What `CommandRun` says about `command_run` is what the call does. -/
theorem commandRun_of_report {status : CliStatus} {report : Option RuntimeError}
    (h : CommandRun host.load host.files host.regs path status report) :
    ∃ stdout stderr, commandRun host path (.exited status stdout stderr host.files) ∧
      ∀ r, report = some r → stderr = r.render := by
  unfold commandRun withProgram
  cases h with
  | notLoaded hload =>
    generalize loadProgramAuto host.load host.files path waiProgramInit (some zeroInfo) = loaded
      at hload
    obtain ⟨_, program, info⟩ := loaded
    cases hload
    exact ⟨_, _, rfl, nofun⟩
  | finished hload hends hcode =>
    rw [hload]
    exact ⟨_, _, ⟨_, hends, congrArg (Option.map _) hcode⟩, nofun⟩
  | @failed program info c execution hload hends hcode hne =>
    rw [hload]
    have hend : runEnd host (.returned c) = some (host.fails (printedText c.mem.emitted)
        (RuntimeError.render ⟨c.mem.ip, execution⟩)) := by
      refine (congrArg (Option.map _) hcode).trans ?_
      cases execution <;> first | rfl | exact absurd rfl hne
    refine ⟨_, _, ⟨_, hends, hend⟩, ?_⟩
    rintro _ ⟨⟩
    rfl

/-- The ends of `run` on a file: the program halts, the file cannot be loaded, or the program fails in
the machine `vm`; or it comes to a division that kills the process. What was printed before a failure is
on `stdout`. -/
inductive RunReport (host : Host) (path : Text) : ProcessEnd → Prop
  | halted {program : OwnedProgram} {info : Option WaiBytecodeInfo} {n : Nat} {vm : WaiVm} :
      loadProgramAuto host.load host.files path waiProgramInit (some zeroInfo) =
        (.ok, program, info) →
      Finishes host.regs program.initialVm n .ok vm →
      RunReport host path (host.succeeds (printedText vm.emitted))
  | notLoaded :
      (loadProgramAuto host.load host.files path waiProgramInit (some zeroInfo)).1 = .err →
      RunReport host path (host.fails [] (loadMessage host path))
  | failed {program : OwnedProgram} {info : Option WaiBytecodeInfo} {vm : WaiVm}
      {report : RuntimeError} :
      loadProgramAuto host.load host.files path waiProgramInit (some zeroInfo) =
        (.ok, program, info) →
      FailsAt host.regs program vm report.error → report.error ∈ runErrors →
      report.ip = vm.ip ∨ report.ip = vm.ip + 1 →
      RunReport host path (host.fails (printedText vm.emitted) report.render)
  | killed {program : OwnedProgram} {info : Option WaiBytecodeInfo} :
      loadProgramAuto host.load host.files path waiProgramInit (some zeroInfo) =
        (.ok, program, info) →
      ReachesDivision program →
      RunReport host path .killed

theorem run_reported {e : ProcessEnd} (hrun : commandRun host path e) : RunReport host path e := by
  unfold commandRun withProgram at hrun
  split at hrun
  · next program info hload =>
    obtain ⟨r, hr, he⟩ := hrun
    cases r with
    | trapped t =>
      obtain ⟨rfl, hdivides⟩ := divides_of_trapped hr
      cases he
      exact .killed hload hdivides
    | returned c =>
      obtain ⟨execution, hcode, he⟩ := Option.map_eq_some_iff.mp he
      by_cases hok : execution = .ok
      · subst hok
        obtain ⟨n, hfinishes⟩ := finishes_of_ends hr hcode
        cases he
        exact .halted hload hfinishes
      · obtain ⟨vm, hfails⟩ := fails_of_ends hr hcode hok
        obtain ⟨n, vm', hfinishes, hreach, hdone⟩ := fails_cases hfails
        obtain ⟨c', hends, _, rfl⟩ := finishes_ends hfinishes
        cases Machine.ends_unique hr hends
        have hprinted := failed_emitted hreach hdone hok
        have hip : c.mem.ip = vm.ip ∨ c.mem.ip = vm.ip + 1 :=
          (failed_ip hreach hdone hok).imp And.right And.right
        have hreport : RunReport host path (host.fails (printedText c.mem.emitted)
            (RuntimeError.render ⟨c.mem.ip, execution⟩)) := by
          rw [hprinted]
          exact .failed hload hfails (failed_error hload hfails) hip
        cases execution <;> first | exact absurd rfl hok | (cases he; exact hreport)
  · next hload =>
    cases hrun
    exact .notLoaded (congrArg Prod.fst hload)

/-- Whatever is in the file, where `run` ends it has halted, or it reports that the file cannot be loaded
or one of seven errors of the program, or a division has killed it. -/
theorem run_reports (host : Host) (name path : Text) {e : ProcessEnd}
    (h : waiCliMain host [name, ['r', 'u', 'n'], path] e) : RunReport host path e :=
  run_reported h

end Reports

theorem nop_exits : ∃ stdout stderr,
    waiCliMain (sourceHost nopSource) [['w'], ['r', 'u', 'n'], ['s']]
      (.exited .err stdout stderr (onlySource nopSource)) := by
  have hcode : (loadedFrom nopSource).code = some [⟨28, 0, 0, 0, 0⟩] := by decide +kernel
  have hreach : ReachesIn instructionStep 1 (loadedFrom nopSource).initialVm
      (waiVmInit (some [⟨28, 0, 0, 0, 0⟩]) 1).fetched := by
    rw [(loadedFrom nopSource).initialVm_eq hcode]
    rfl
  have hload : (loadProgramAuto .unlimited (onlySource nopSource) ['s'] waiProgramInit
      (some zeroInfo)).1 = .ok := by decide +kernel
  obtain ⟨hrun, _⟩ := run_of_source hload hreach rfl nofun
  obtain ⟨stdout, stderr, hcall, _⟩ := @commandRun_of_report (sourceHost nopSource) _ _ _ hrun
  exact ⟨stdout, stderr, hcall⟩

/-- `waivm run s` on the source `nop`. -/
theorem run_reports_nop : ∃ stdout stderr,
    RunReport (sourceHost nopSource) ['s'] (.exited .err stdout stderr (onlySource nopSource)) := by
  obtain ⟨stdout, stderr, hcall⟩ := nop_exits
  exact ⟨stdout, stderr, run_reports (sourceHost nopSource) ['w'] ['s'] hcall⟩

end Waivm
