import Waivm.CliMain

/-!
# Requests for memory that fail

Every array that is allocated while a program is loaded can be refused, and the table of the debugger.
Which requests succeed is a parameter of the model. It decides whether a call goes on, and nothing else.

Results:
1. `assemble_memory`: the assembler does what it does with memory that never runs out, or it reports that
   there is none, and has no program.
2. `load_memory`: so does `load_program_auto`.
3. `cli_memory`: a call ends as with memory that never runs out, or with a message and exit status 1.
-/

namespace Waivm

open CString Printf
open LittleEndian (Byte)
open X86 (Reg Val)
open Machine (Outcome ReachesIn Reaches Ends)

/-! ## 1. The assembler -/

/-- What the assembler reports when there is no memory for something on line `line`. -/
def noMemory (line : Nat) : WaiAssemblerResult :=
  resultSet .errOom line "out of memory".toList

/-- Both do the same, or the first one has run out of memory. -/
def SameOrNoMemory {α : Type} (x y : Except WaiAssemblerResult α) : Prop :=
  x = y ∨ ∃ line, x = .error (noMemory line)

section Assembler
variable {alloc : AssemblerAlloc} {state : AssemblyState} {lineNumber : Nat}

theorem labelAdd_memory {table : LabelTable} {name : Text} {target : Nat} {status : WaiErrorCode}
    (h : labelAdd alloc.labels table name target = .error status) :
    status = .errOom ∨ labelAdd (fun _ => true) table name target = .error status := by
  unfold labelAdd at h ⊢
  split at h
  · exact .inr h
  · split at h
    · cases h
      exact .inl rfl
    · cases h

theorem label_memory (line : Text) :
    SameOrNoMemory (assembleLabel alloc state lineNumber line)
      (assembleLabel .unlimited state lineNumber line) := by
  unfold assembleLabel
  simp only
  split
  · exact .inl rfl
  · cases hadd : labelAdd alloc.labels state.table (trim line) state.program.count with
    | ok table =>
      rw [show AssemblerAlloc.unlimited.labels = fun _ => true from rfl,
        labelAdd_of_grants (fun _ => rfl) hadd]
      exact .inl rfl
    | error status =>
      rcases labelAdd_memory hadd with rfl | hsame
      · exact .inr ⟨lineNumber, rfl⟩
      · rw [show AssemblerAlloc.unlimited.labels = fun _ => true from rfl, hsame]
        exact .inl rfl

theorem pendingAdd_memory {allocates : Nat → Bool} {table : LabelTable} {index : Nat} {name : Text}
    {line : Nat} {status : WaiErrorCode}
    (h : pendingAdd allocates table index name line = .error status) : status = .errOom := by
  unfold pendingAdd at h
  split at h
  · cases h
    rfl
  · cases h

theorem push_memory (program : OwnedProgram) (instr : WaiInstruction) :
    (∃ same, waiProgramPush alloc.code program instr = (.errOom, same)) ∨
      waiProgramPush alloc.code program instr =
        waiProgramPush AssemblerAlloc.unlimited.code program instr := by
  cases hp : waiProgramPush alloc.code program instr with
  | mk status program' =>
    rcases push_instructions hp with ⟨rfl, _⟩ | ⟨rfl, _⟩
    · exact .inl ⟨program', rfl⟩
    · exact .inr (push_of_grants (fun _ => rfl) hp).symm

theorem instruction_memory (tokens : List Text) :
    SameOrNoMemory (assembleInstruction alloc state lineNumber tokens)
      (assembleInstruction .unlimited state lineNumber tokens) := by
  unfold assembleInstruction parseInstruction
  rcases parseTokens tokens with _ | ⟨instr, _ | label⟩
  · exact .inl rfl
  · simp only
    rcases @push_memory alloc state.program instr with ⟨same, hp⟩ | hp
    · rw [hp]
      exact .inr ⟨lineNumber, rfl⟩
    · rw [hp]
      exact .inl rfl
  · simp only
    cases hadd : pendingAdd alloc.pending state.table state.program.count label lineNumber with
    | error status =>
      cases pendingAdd_memory hadd
      exact .inr ⟨lineNumber, rfl⟩
    | ok table =>
      rw [show AssemblerAlloc.unlimited.pending = fun _ => true from rfl,
        pendingAdd_of_grants (fun _ => rfl) hadd]
      simp only
      rcases @push_memory alloc state.program instr with ⟨same, hp⟩ | hp
      · rw [hp]
        exact .inr ⟨lineNumber, rfl⟩
      · rw [hp]
        exact .inl rfl

theorem line_memory (rawLine : Text) :
    SameOrNoMemory (assembleLine alloc state lineNumber rawLine)
      (assembleLine .unlimited state lineNumber rawLine) := by
  unfold assembleLine
  simp only
  split
  · exact .inl rfl
  · split
    · exact label_memory _
    · split
      · exact .inl rfl
      · exact .inl rfl
      · exact instruction_memory _

theorem lines_memory (rawLines : List Text) :
    SameOrNoMemory (assembleLines alloc lineNumber state rawLines)
      (assembleLines .unlimited lineNumber state rawLines) := by
  induction rawLines generalizing lineNumber state with
  | nil => exact .inl rfl
  | cons rawLine rest ih =>
    rw [assembleLines, assembleLines]
    rcases line_memory rawLine with hsame | ⟨line, hnone⟩
    · rw [hsame]
      cases assembleLine .unlimited state (lineNumber + 1) rawLine with
      | error result => exact .inl rfl
      | ok next => exact ih
    · rw [hnone]
      exact .inr ⟨line, rfl⟩

/-- The assembler does what it does in memory that never runs out, or it says that there is none. -/
theorem assemble_memory (alloc : AssemblerAlloc) (source : Text) :
    waiAssembleSource alloc source = waiAssembleSource .unlimited source ∨
      ∃ line, waiAssembleSource alloc source = (noMemory line, waiProgramInit) := by
  unfold waiAssembleSource
  cases alloc.copy with
  | false => exact .inr ⟨0, rfl⟩
  | true =>
    rw [show AssemblerAlloc.unlimited.copy = true from rfl]
    rcases @lines_memory alloc ⟨.zero, waiProgramInit⟩ 0 (pieces (· == '\n') source) with
      hsame | ⟨line, hnone⟩
    · rw [hsame]
      exact .inl rfl
    · rw [hnone]
      exact .inr ⟨line, rfl⟩

end Assembler

/-! ## 2. Loading -/

/-- What is written to `stderr` where memory runs out. A buffer that cannot be allocated is reported as
a file that cannot be read. -/
inductive MemoryMessage : Text → Prop
  | source (line : Nat) : MemoryMessage (assembleMessage (noMemory line))
  | buffer : MemoryMessage (assembleMessage (resultSet .errIo 0 "could not read source file".toList))
  | bytecode : MemoryMessage (errorMessage "bytecode error: " .errOom)
  | breakpoints : MemoryMessage (errorMessage "debugger error: " .errOom)

/-- The host, with memory that never runs out. -/
def Host.withMemory (host : Host) : Host :=
  { host with
    load := .unlimited
    breakpoints := true }

section Load
variable {host : Host} {path : Text}

theorem assembleFile_memory (alloc : AssemblerAlloc) (file : Option (List Byte)) (out : OwnedProgram) :
    waiAssembleFile alloc file out = waiAssembleFile .unlimited file out ∨
      (∃ line, waiAssembleFile alloc file out = (noMemory line, waiProgramInit)) ∨
      waiAssembleFile alloc file out =
        (resultSet .errIo 0 "could not read source file".toList, out) := by
  cases file with
  | none => exact .inl rfl
  | some content =>
    unfold waiAssembleFile
    cases alloc.buffer with
    | false => exact .inr (.inr rfl)
    | true =>
      rcases assemble_memory alloc (textOf content) with hsame | hnone
      · exact .inl hsame
      · exact .inr (.inl hnone)

theorem reader_memory (alloc : Nat → Bool) (file : Option (List Byte)) (out : OwnedProgram)
    (outInfo : Option WaiBytecodeInfo) :
    waiBytecodeReadFile alloc file out outInfo =
        waiBytecodeReadFile (fun _ => true) file out outInfo ∨
      (waiBytecodeReadFile alloc file out outInfo).1 = .errOom := by
  unfold waiBytecodeReadFile
  split
  · exact .inl rfl
  · split
    · exact .inl rfl
    · split
      · exact .inl rfl
      · next info _ =>
        by_cases halloc : 0 < info.codeCount ∧ (!alloc info.codeCount.toNat) = true
        · rw [if_pos halloc]
          exact .inr rfl
        · rw [if_neg halloc, if_neg (by simp)]
          exact .inl rfl

/-- A file is loaded as with memory that never runs out, or it cannot be loaded. -/
theorem load_memory (host : Host) (path : Text) :
    (loadProgramAuto host.load host.files path waiProgramInit (some zeroInfo) =
        loadProgramAuto .unlimited host.files path waiProgramInit (some zeroInfo) ∧
      loadMessage host path = loadMessage host.withMemory path) ∨
    ((loadProgramAuto host.load host.files path waiProgramInit (some zeroInfo)).1 = .err ∧
      MemoryMessage (loadMessage host path)) := by
  unfold loadProgramAuto loadMessage
  by_cases hmagic : waiFileHasWaibcMagic (host.files path) = true
  · rw [if_pos hmagic, if_pos hmagic, if_pos hmagic, if_pos (show waiFileHasWaibcMagic
      (host.withMemory.files path) = true from hmagic)]
    rcases reader_memory host.load.code (host.files path) waiProgramInit (some zeroInfo) with
      hsame | hnone
    · rw [hsame]
      exact .inl ⟨rfl, rfl⟩
    · refine .inr ?_
      rw [hnone]
      generalize waiBytecodeReadFile host.load.code (host.files path) waiProgramInit (some zeroInfo) =
        read at hnone
      obtain ⟨_, program, info⟩ := read
      cases hnone
      exact ⟨rfl, .bytecode⟩
  · rw [if_neg hmagic, if_neg hmagic, if_neg hmagic, if_neg (show ¬ waiFileHasWaibcMagic
      (host.withMemory.files path) = true from hmagic)]
    simp only
    rcases assembleFile_memory host.load.assembler (host.files path) waiProgramInit with
      hsame | ⟨line, hnone⟩ | hbuffer
    · rw [hsame]
      exact .inl ⟨rfl, rfl⟩
    · rw [hnone]
      exact .inr ⟨rfl, .source line⟩
    · rw [hbuffer]
      exact .inr ⟨rfl, .buffer⟩

end Load

/-! ## 3. Calls -/

/-- The call has run out of memory. -/
def NoMemory (host : Host) (e : ProcessEnd) : Prop :=
  ∃ stderr, e = host.fails [] stderr ∧ MemoryMessage stderr

section Calls
variable {host : Host} {path : Text} {argv : List Text} {e : ProcessEnd}

theorem withProgram_memory {command command' : OwnedProgram → ProcessEnd → Prop}
    (hcommand : ∀ program, command program e → command' program e ∨ NoMemory host e)
    (h : withProgram host path command e) :
    withProgram host.withMemory path command' e ∨ NoMemory host e := by
  rcases load_memory host path with ⟨hload, hmessage⟩ | ⟨herr, hmessage⟩
  · unfold withProgram at h ⊢
    rw [hload] at h
    rw [show host.withMemory.load = .unlimited from rfl, show host.withMemory.files = host.files from rfl]
    split at h
    · exact hcommand _ h
    · exact .inl (h.trans (congrArg (host.fails []) hmessage))
  · refine .inr ⟨_, ?_, hmessage⟩
    unfold withProgram at h
    split at h
    · next hload => cases (congrArg Prod.fst hload).symm.trans herr
    · exact h

theorem oneFile_memory {arguments : List Text} {complaint : Text}
    {command command' : Text → ProcessEnd → Prop}
    (hcommand : ∀ path, command path e → command' path e ∨ NoMemory host e)
    (h : oneFile host arguments complaint command e) :
    oneFile host.withMemory arguments complaint command' e ∨ NoMemory host e := by
  unfold oneFile at h ⊢
  split at h
  · exact hcommand _ h
  · exact .inl h

theorem asm_memory (host : Host) (argv : List Text) :
    commandAsmEnd host argv = commandAsmEnd host.withMemory argv ∨
      NoMemory host (commandAsmEnd host argv) := by
  unfold commandAsmEnd
  split
  · next input option output =>
    by_cases hoption : option ≠ ['-', 'o']
    · rw [if_pos hoption, if_pos hoption]
      exact .inl rfl
    · rw [if_neg hoption, if_neg hoption]
      simp only
      rw [show host.withMemory.load.assembler = .unlimited from rfl,
        show host.withMemory.files = host.files from rfl]
      rcases assembleFile_memory host.load.assembler (host.files input) waiProgramInit with
        hsame | ⟨line, hnone⟩ | hbuffer
      · rw [hsame]
        exact .inl rfl
      · rw [hnone]
        exact .inr ⟨_, rfl, .source line⟩
      · rw [hbuffer]
        exact .inr ⟨_, rfl, .buffer⟩
  · exact .inl rfl

/-- The debugger allocates its table before it writes anything. -/
theorem debug_memory {program : OwnedProgram}
    (h : ∃ r, WaiDebuggerRun program host.breakpoints host.stdin r ∧ debugEnd host r = e) :
    (∃ r, WaiDebuggerRun program true host.stdin r ∧ debugEnd host.withMemory r = e) ∨
      NoMemory host e := by
  obtain ⟨r, hr, rfl⟩ := h
  cases hbreakpoints : host.breakpoints with
  | true =>
    rw [hbreakpoints] at hr
    exact .inl ⟨r, hr, rfl⟩
  | false =>
    rw [hbreakpoints] at hr
    have hr : r = .returned .errOom [] := by
      unfold WaiDebuggerRun at hr
      rwa [if_neg Bool.false_ne_true] at hr
    rw [hr]
    exact .inr ⟨_, rfl, .breakpoints⟩

theorem branch_memory {condition : Prop} [Decidable condition] {p p' q q' : Prop}
    (hp : p → p' ∨ NoMemory host e) (hq : q → q' ∨ NoMemory host e)
    (h : if condition then p else q) : (if condition then p' else q') ∨ NoMemory host e := by
  split at h
  · next hcondition =>
    rw [if_pos hcondition]
    exact hp h
  · next hcondition =>
    rw [if_neg hcondition]
    exact hq h

/-- Whatever requests for memory fail, a call ends as it does in memory that never runs out, or with a
message and exit status 1. -/
theorem cli_memory (h : waiCliMain host argv e) :
    waiCliMain host.withMemory argv e ∨ NoMemory host e := by
  unfold waiCliMain at h ⊢
  split at h
  · exact .inl h
  · exact .inl h
  · refine branch_memory .inl (branch_memory ?run (branch_memory ?asm (branch_memory ?dis
      (branch_memory ?debug (branch_memory ?trace (branch_memory ?verify (branch_memory .inl
        .inl))))))) h
    case run => exact oneFile_memory fun _ => withProgram_memory fun _ => .inl
    case dis => exact oneFile_memory fun _ => withProgram_memory fun _ => .inl
    case trace => exact oneFile_memory fun _ => withProgram_memory fun _ => .inl
    case verify => exact oneFile_memory fun _ => withProgram_memory fun _ => .inl
    case debug => exact oneFile_memory fun _ => withProgram_memory fun _ => debug_memory
    case asm =>
      rintro rfl
      exact asm_memory host _

/-- The directory with the file `s`, on a host that has no memory for the table of the debugger. -/
def smallHost : Host :=
  { sourceHost haltSource with breakpoints := false }

/-- `waivm debug s` where the table of the debugger cannot be allocated. -/
theorem cli_memory_debug :
    ∃ e, waiCliMain smallHost [['w'], ['d', 'e', 'b', 'u', 'g'], ['s']] e ∧
      (waiCliMain smallHost.withMemory [['w'], ['d', 'e', 'b', 'u', 'g'], ['s']] e ∨
        NoMemory smallHost e) := by
  have hload : ∃ program info, loadProgramAuto smallHost.load smallHost.files ['s'] waiProgramInit
      (some zeroInfo) = (.ok, program, info) := ⟨_, _, rfl⟩
  obtain ⟨program, info, hload⟩ := hload
  have hcall : waiCliMain smallHost [['w'], ['d', 'e', 'b', 'u', 'g'], ['s']]
      (smallHost.fails [] (errorMessage "debugger error: " .errOom)) := by
    simp only [waiCliMain, reduceIte, List.cons.injEq, Char.reduceEq, false_and, and_false,
      and_true, or_false, oneFile, commandDebug, withProgram]
    rw [hload]
    exact ⟨.returned .errOom [], rfl, rfl⟩
  exact ⟨_, hcall, cli_memory hcall⟩

end Calls

end Waivm
