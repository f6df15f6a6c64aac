import Waivm.Disassembler
import Waivm.Verifier

/-!
# The debugger (`debugger.h`, `debugger.c`)

`wai_debugger_run` reads lines from a stream and executes them as commands on a machine
that it steps with `wai_vm_step`. The model is a machine whose steps are the rounds of its
two loops: one round at the prompt reads a line, and one round of the loop of `continue`
executes an instruction. What it writes is kept as a list of lines; `render` gives their
text. The `NULL` tests on the arguments are left out.
-/

namespace Waivm

open CString Printf
open LittleEndian (Byte)
open Machine (Outcome)

/-! ## The output -/

/-- What the debugger writes. -/
inductive DebuggerLine
  | banner
  | prompt
  | help
  | regs (vm : WaiVm)
  | ip (ip : BitVec 64)
  | instruction (current : Bool) (index : Nat) (ins : WaiInstruction)
  | memUsage
  | memOutOfBounds
  | memRow (address : BitVec 64) (row : List Byte)
  | stackUsage
  | stackEmpty
  | stackReadError (status : WaiErrorCode)
  | stackRow (address : BitVec 64) (value : WaiValue)
  | printed (value : WaiValue)
  | runtimeError (ip : BitVec 64) (status : WaiErrorCode)
  | halted
  | breakpointHit (ip : BitVec 64)
  | invalidBreakpoint
  | breakpointSet (ip : Nat)
  | breakpointCleared (ip : Nat)
  | unknownCommand (cmd : Text)

/-- `print_help` -/
def printHelp : Text :=
  ("commands:\n" ++
    "  help                 show this help\n" ++
    "  regs                 print registers, flags, ip, sp\n" ++
    "  ip                   print instruction pointer\n" ++
    "  dis                  disassemble around ip\n" ++
    "  mem <addr> [bytes]   dump memory bytes, max 256 bytes\n" ++
    "  stack [count]        dump stack qwords from sp\n" ++
    "  step | s             execute one instruction\n" ++
    "  continue | c         run until halt, error, or breakpoint\n" ++
    "  break | b <ip>       set breakpoint\n" ++
    "  clear <ip>           clear breakpoint\n" ++
    "  quit | q             exit debugger\n").toList

/-- `print_regs` -/
def printRegs (vm : WaiVm) : Text :=
  (List.finRange waiRegisterCount).flatMap (fun r =>
    'r' :: unsigned 10 r.val ++ '=' :: signed (vm.regs r).toInt ++
      (if r.val = 7 then ['\n'] else [' ', ' '])) ++
  "ip=".toList ++ unsigned 10 vm.ip.toNat ++ " sp=".toList ++ unsigned 10 vm.sp.toNat ++
  " zf=".toList ++ unsigned 10 vm.zf.toNat ++ " halted=".toList ++ unsigned 10 vm.halted.toNat ++
  " prints=".toList ++ unsigned 10 vm.printCount.toNat ++ ['\n']

/-- The text of a line. -/
def DebuggerLine.render : DebuggerLine → Text
  | .banner => "waivm debugger. type 'help' for commands.\n".toList
  | .prompt => "waidbg> ".toList
  | .help => printHelp
  | .regs vm => printRegs vm
  | .ip value => unsigned 10 value.toNat ++ ['\n']
  | .instruction current index ins =>
    (if current then '>' else ' ') :: ' ' :: waiDisassembleInstruction ins index
  | .memUsage => "usage: mem <addr> [bytes]\n".toList
  | .memOutOfBounds => "memory address out of bounds\n".toList
  | .memRow address row =>
    zeroFilled 4 (unsigned 16 address.toNat) ++
      ':' :: row.flatMap (fun byte => ' ' :: zeroFilled 2 (unsigned 16 byte.toNat)) ++ ['\n']
  | .stackUsage => "usage: stack [count]\n".toList
  | .stackEmpty => "stack empty\n".toList
  | .stackReadError status =>
    "stack read error: ".toList ++ (waiErrorString status).toList ++ ['\n']
  | .stackRow address value =>
    '[' :: zeroFilled 4 (unsigned 16 address.toNat) ++ ']' :: ' ' :: signed value.toInt ++ ['\n']
  | .printed value => signed value.toInt ++ ['\n']
  | .runtimeError index status =>
    "runtime error at ip=".toList ++ unsigned 10 index.toNat ++
      ':' :: ' ' :: (waiErrorString status).toList ++ ['\n']
  | .halted => "halted\n".toList
  | .breakpointHit index => "breakpoint hit at ".toList ++ unsigned 10 index.toNat ++ ['\n']
  | .invalidBreakpoint => "invalid breakpoint\n".toList
  | .breakpointSet index => "breakpoint set at ".toList ++ unsigned 10 index ++ ['\n']
  | .breakpointCleared index => "breakpoint cleared at ".toList ++ unsigned 10 index ++ ['\n']
  | .unknownCommand cmd => "unknown command: ".toList ++ cmd ++ ['\n']

/-- `dis_around`. The bounds of the window are computed in `size_t`. -/
def disAround (program : OwnedProgram) (vm : WaiVm) : List DebuggerLine :=
  let start := if 2 < vm.ip then vm.ip - 2 else 0
  let stop := if program.count < (vm.ip + 3).toNat then program.count else (vm.ip + 3).toNat
  (List.range' start.toNat (stop - start.toNat)).filterMap fun i =>
    program.instructions[i]?.map (.instruction (i = vm.ip.toNat) i)

/-! ## Arguments -/

/-- `trim_line` -/
def trimLine (line : Text) : Text :=
  (line.dropWhile isspace).rdropWhile isspace

/-- `parse_index`: an index below `limit`. -/
def parseIndex (text : Option Text) (limit : Nat) : Option (Fin limit) :=
  match text with
  | none | some [] => none
  | some text =>
    match strtoull text with
    | some (value, []) => if h : value.toNat < limit then some ⟨value.toNat, h⟩ else none
    | _ => none

/-- `parse_u64_token`: the value, and the text at `*next`. -/
def parseU64Token (text : Option Text) : Option (BitVec 64 × Text) :=
  match text with
  | none | some [] => none
  | some text => (strtoull text).map fun number => (number.1, number.2.dropWhile isspace)

/-! ## Dumps -/

/-- The bytes that one row of `dump_memory` reads. -/
def memoryRow (vm : WaiVm) (address i count : BitVec 64) : Except Fault DebuggerLine := do
  let lineCount := if 16 < count - i then 16 else count - i
  let row ← (List.range lineCount.toNat).mapM fun j =>
    vm.memoryAt (address + i + BitVec.ofNat 64 j)
  pure (.memRow (address + i) row)

/-- `dump_memory` after its arguments were read: `count` is at most 256 then. -/
def dumpRange (vm : WaiVm) (address count : BitVec 64) : Except Fault (List DebuggerLine) :=
  if waiMemorySize ≤ address.toNat then .ok [.memOutOfBounds]
  else
    let count := if waiMemorySize < (address + count).toNat then
      BitVec.ofNat 64 waiMemorySize - address else count
    (List.range ((count.toNat + 15) / 16)).mapM fun k =>
      memoryRow vm address (BitVec.ofNat 64 (16 * k)) count

/-- `dump_memory` -/
def dumpMemory (vm : WaiVm) (arg : Option Text) : Except Fault (List DebuggerLine) :=
  match parseU64Token arg with
  | none => .ok [.memUsage]
  | some (address, []) => dumpRange vm address 64
  | some (address, next) =>
    match parseU64Token (some next) with
    | some (count, []) => dumpRange vm address (if 256 < count then 256 else count)
    | _ => .ok [.memUsage]

/-- The loop of `dump_stack`, with the number of rounds that are left. -/
def dumpStackFrom (vm : WaiVm) : Nat → BitVec 64 → Except Fault (List DebuggerLine)
  | 0, _ => .ok []
  | n + 1, address =>
    if waiMemorySize - sizeofWaiValue < address.toNat then .ok []
    else do
      match ← waiVmMemoryLoadI64 vm address with
      | .error status => pure [.stackReadError status]
      | .ok value =>
        let rest ← dumpStackFrom vm n (address + BitVec.ofNat 64 sizeofWaiValue)
        pure (.stackRow address value :: rest)

/-- `dump_stack` after its argument was read. -/
def dumpQwords (vm : WaiVm) (count : BitVec 64) : Except Fault (List DebuggerLine) :=
  if waiMemorySize - sizeofWaiValue < vm.sp.toNat then .ok [.stackEmpty]
  else dumpStackFrom vm (if 32 < count then 32 else count).toNat vm.sp

/-- `dump_stack` -/
def dumpStack (vm : WaiVm) (arg : Option Text) : Except Fault (List DebuggerLine) :=
  match arg with
  | none | some [] => dumpQwords vm 8
  | some text =>
    match parseU64Token (some text) with
    | some (count, []) => dumpQwords vm count
    | _ => .ok [.stackUsage]

/-! ## Commands -/

/-- The commands, with the argument of those that read it. -/
inductive DebuggerCommand
  | help
  | regs
  | ip
  | dis
  | mem (arg : Option Text)
  | stack (arg : Option Text)
  | doStep
  | doContinue
  | doBreak (arg : Option Text)
  | doClear (arg : Option Text)
  | quit
  | unknown (cmd : Text)
deriving DecidableEq

/-- The `if` chain over the first word of a line. -/
def commandOf (cmd : Text) (arg : Option Text) : DebuggerCommand :=
  if cmd = ['h', 'e', 'l', 'p'] then .help
  else if cmd = ['r', 'e', 'g', 's'] then .regs
  else if cmd = ['i', 'p'] then .ip
  else if cmd = ['d', 'i', 's'] then .dis
  else if cmd = ['m', 'e', 'm'] then .mem arg
  else if cmd = ['s', 't', 'a', 'c', 'k'] then .stack arg
  else if cmd = ['s', 't', 'e', 'p'] ∨ cmd = ['s'] then .doStep
  else if cmd = ['c', 'o', 'n', 't', 'i', 'n', 'u', 'e'] ∨ cmd = ['c'] then .doContinue
  else if cmd = ['b', 'r', 'e', 'a', 'k'] ∨ cmd = ['b'] then .doBreak arg
  else if cmd = ['c', 'l', 'e', 'a', 'r'] then .doClear arg
  else if cmd = ['q', 'u', 'i', 't'] ∨ cmd = ['q'] then .quit
  else .unknown cmd

/-- The command in a line; `none` for a blank line. -/
def parseCommand (line : Text) : Option DebuggerCommand :=
  let cmd := trimLine line
  if cmd = [] then none
  else
    match cmd.dropWhile (!isspace ·) with
    | [] => some (commandOf cmd none)
    | _ :: rest => some (commandOf (cmd.takeWhile (!isspace ·)) (some (trimLine rest)))

/-- `sizeof(line)` -/
def debuggerLineSize : Nat := 256

/-- What one call of `fgets` makes of the input: the command in the buffer if there is one,
and the rest of the input. `none` at the end of the input. -/
def readCommand (input : Text) : Option (Option DebuggerCommand × Text) :=
  (fgets debuggerLineSize input).map fun read => (parseCommand (cString read.1), read.2)

/-! ## The two loops -/

/-- The local variables of `wai_debugger_run` for a program of `count` instructions.
`continuing` says that it is in the loop of `continue`, `input` and `out` are what is left
of the input and what was written. Two fields are no variables of the C function:
`dispatched` has the commands dispatched so far, and `executed` counts the instructions
executed. -/
structure DebuggerState (count : Nat) where
  vm : WaiVm
  breakpoints : Fin count → Bool
  continuing : Bool
  input : Text
  out : List DebuggerLine
  dispatched : List DebuggerCommand
  executed : Nat

/-- How `wai_debugger_run` ends. -/
inductive DebuggerEnd
  | returned (status : WaiErrorCode) (out : List DebuggerLine)
  | fault (f : Fault)

namespace DebuggerState
variable {count : Nat}

/-- The state after `lines` were written. -/
def say (s : DebuggerState count) (lines : List DebuggerLine) : DebuggerState count :=
  { s with out := s.out ++ lines }

/-- `vm.ip < program->count && breakpoints[vm.ip] != 0u` -/
def atBreakpoint (s : DebuggerState count) : Bool :=
  if h : s.vm.ip.toNat < count then s.breakpoints ⟨s.vm.ip.toNat, h⟩ else false

end DebuggerState

section Loops
variable (program : OwnedProgram)

/-- What `wai_vm_emit_print` wrote during a call of `wai_vm_step`. -/
def printedBy (before after : WaiVm) : List DebuggerLine :=
  (after.emitted.drop before.emitted.length).map .printed

/-- `do_step`, and the `return` that follows its failure. -/
def doStep (s : DebuggerState program.count) : Outcome (DebuggerState program.count) DebuggerEnd :=
  match waiVmStep s.vm with
  | .error f => .done (.fault f)
  | .ok (.ok, vm) =>
    .next { s with
      vm := vm
      out := s.out ++ printedBy s.vm vm
      executed := s.executed + 1 }
  | .ok (status, vm) =>
    .done (.returned vm.error
      (s.out ++ printedBy s.vm vm ++ [.runtimeError s.vm.ip status]))

/-- The lines of an inspection command. -/
def inspect (s : DebuggerState program.count) (lines : Except Fault (List DebuggerLine)) :
    Outcome (DebuggerState program.count) DebuggerEnd :=
  match lines with
  | .error f => .done (.fault f)
  | .ok lines => .next (s.say lines)

/-- The branch of `break` and of `clear`: the entry of the breakpoint is set to `value`. -/
def setBreakpoint (s : DebuggerState program.count) (arg : Option Text) (value : Bool)
    (line : Nat → DebuggerLine) : DebuggerState program.count :=
  match parseIndex arg program.count with
  | none => s.say [.invalidBreakpoint]
  | some ip => { s.say [line ip] with breakpoints := Function.update s.breakpoints ip value }

/-- The branch of a command. -/
def debuggerDispatch (s : DebuggerState program.count) :
    DebuggerCommand → Outcome (DebuggerState program.count) DebuggerEnd
  | .help => .next (s.say [.help])
  | .regs => .next (s.say [.regs s.vm])
  | .ip => .next (s.say [.ip s.vm.ip])
  | .dis => .next (s.say (disAround program s.vm))
  | .mem arg => inspect program s (dumpMemory s.vm arg)
  | .stack arg => inspect program s (dumpStack s.vm arg)
  | .doStep =>
    if s.vm.halted ≠ 0 then .next (s.say [.halted])
    else
      match doStep program s with
      | .done result => .done result
      | .next s => .next (s.say (disAround program s.vm))
  | .doContinue => .next { s with continuing := true }
  | .doBreak arg => .next (setBreakpoint program s arg true .breakpointSet)
  | .doClear arg => .next (setBreakpoint program s arg false .breakpointCleared)
  | .quit => .done (.returned .ok s.out)
  | .unknown cmd => .next (s.say [.unknownCommand cmd])

/-- One round of the loop over the input. -/
def promptRound (s : DebuggerState program.count) :
    Outcome (DebuggerState program.count) DebuggerEnd :=
  match readCommand s.input with
  | none => .done (.returned .ok (s.out ++ [.prompt]))
  | some (none, input) => .next { s.say [.prompt] with input := input }
  | some (some command, input) =>
    debuggerDispatch program { s.say [.prompt] with
      input := input
      dispatched := s.dispatched ++ [command] } command

/-- One round of the loop of `continue`, and what follows the loop. -/
def continueRound (s : DebuggerState program.count) :
    Outcome (DebuggerState program.count) DebuggerEnd :=
  if s.vm.halted ≠ 0 then .next { s.say [.halted] with continuing := false }
  else if s.atBreakpoint then
    .next { s.say (.breakpointHit s.vm.ip :: disAround program s.vm) with continuing := false }
  else doStep program s

/-- The rounds of `wai_debugger_run`. -/
def debuggerStep (s : DebuggerState program.count) :
    Outcome (DebuggerState program.count) DebuggerEnd :=
  if s.continuing then continueRound program s else promptRound program s

/-- The state in which the first line is read. -/
def debuggerStart (input : Text) : DebuggerState program.count where
  vm := waiVmSetPrintStream program.initialVm true
  breakpoints := fun _ => false
  continuing := false
  input := input
  out := [.banner]
  dispatched := []
  executed := 0

/-- `wai_debugger_run` on `input` ends with `result`. `alloc` says whether `calloc` gives
the table of breakpoints. -/
def WaiDebuggerRun (alloc : Bool) (input : Text) (result : DebuggerEnd) : Prop :=
  if alloc then Machine.Ends (debuggerStep program) (debuggerStart program input) result
  else result = .returned .errOom []

end Loops

end Waivm
