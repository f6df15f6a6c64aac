import Waivm.AssemblerRefinement
import Waivm.BytecodeFile

/-!
# The command line (`cli.c`)

`waivm asm` assembles a source file and writes the bytecode. `run`, `trace`, `verify`,
`dis` and `debug` take a file of either kind: `load_program_auto` looks at its first
four bytes.

Result: `loading_agrees_iff`, a source and the bytecode that `asm` makes of it load as
the same program exactly when the source does not begin with the bytes of the magic.
-/

namespace Waivm

open CString
open LittleEndian (Byte)

/-- `cli_status` -/
inductive CliStatus
  | ok
  | err
deriving DecidableEq

/-- The content of the file at each path; `none` where no file can be read. -/
abbrev FileSystem := Text → Option (List Byte)

/-- Which allocations succeed while a program is loaded: those of the assembler, and
the array of the bytecode reader. -/
structure LoadAlloc where
  assembler : AssemblerAlloc
  code : Nat → Bool

/-- Every request for memory is granted. -/
structure LoadAlloc.Grants (alloc : LoadAlloc) : Prop where
  assembler : alloc.assembler.Grants
  code : ∀ n, alloc.code n = true

/-- The record of zeros that `load_program_auto` leaves in `*info` for a source. -/
def zeroInfo : WaiBytecodeInfo where
  version := 0
  headerSize := 0
  instructionSize := 0
  registerCount := 0
  flags := 0
  codeCount := 0
  dataSize := 0
  code_count_le := Nat.zero_le _

/-- `load_program_auto`: the status, `*program` and `*info`. -/
def loadProgramAuto (alloc : LoadAlloc) (fs : FileSystem) (path : Text) (program : OwnedProgram)
    (info : Option WaiBytecodeInfo) : CliStatus × OwnedProgram × Option WaiBytecodeInfo :=
  if waiFileHasWaibcMagic (fs path) then
    match waiBytecodeReadFile alloc.code (fs path) program info with
    | (.ok, program, info) => (.ok, program, info)
    | (_, program, info) => (.err, program, info)
  else
    let assembly := waiAssembleFile alloc.assembler (fs path) program
    if assembly.1.error ≠ .ok then (.err, assembly.2, info)
    else (.ok, assembly.2, info.map fun _ => zeroInfo)

/-- `command_asm`: the status, and the files afterwards. -/
def commandAsm (alloc : AssemblerAlloc) (io : WriteIo) (fs : FileSystem) (argv : List Text) :
    CliStatus × FileSystem :=
  match argv with
  | [_, _, input, option, output] =>
    if option ≠ ['-', 'o'] then (.err, fs)
    else
      -- `program` is not initialised; nothing reads it before the assembler sets it
      let assembly := waiAssembleFile alloc (fs input) waiProgramInit
      if assembly.1.error ≠ .ok then (.err, fs)
      else
        match waiBytecodeWriteFile io (fs output) assembly.2 with
        | (.ok, content) => (.ok, Function.update fs output content)
        | (_, content) => (.err, Function.update fs output content)
  | _ => (.err, fs)

/-! ## What `asm` writes -/

section Asm
variable {alloc : AssemblerAlloc} {io : WriteIo} {fs fs' : FileSystem}
  {argv0 command input option output : Text}

theorem assembleFile_ok {file : Option (List Byte)} {out : OwnedProgram}
    (h : (waiAssembleFile alloc file out).1.error = .ok) :
    ∃ content, file = some content ∧ (waiAssembleSource alloc (textOf content)).1.error = .ok ∧
      waiAssembleFile alloc file out = waiAssembleSource alloc (textOf content) := by
  unfold waiAssembleFile at h ⊢
  split at h
  · cases h
  · next content =>
    split at h
    · cases h
    · next hbuffer =>
      rw [if_neg hbuffer]
      exact ⟨content, rfl, h, rfl⟩

/-- When `asm` succeeds, the source was assembled, the program is valid, and its bytes
are in the output file. -/
theorem commandAsm_ok
    (h : commandAsm alloc io fs [argv0, command, input, option, output] = (.ok, fs')) :
    ∃ content, fs input = some content ∧
      (waiAssembleSource alloc (textOf content)).1.error = .ok ∧
      validateProgram (waiAssembleSource alloc (textOf content)).2 = .ok ∧
      fs' = Function.update fs output
        (some (encodeProgram (waiAssembleSource alloc (textOf content)).2)) := by
  rw [commandAsm] at h
  split at h
  · cases h
  · simp only at h
    split at h
    · cases h
    · next hassembled =>
      obtain ⟨content, hcontent, hok, hfile⟩ := assembleFile_ok (not_not.mp hassembled)
      rw [hfile] at h
      split at h
      · next written hwrite =>
        cases h
        obtain ⟨hvalid, _, rfl⟩ := write_ok_iff.mp hwrite
        exact ⟨content, hcontent, hok, hvalid, rfl⟩
      · cases h

end Asm

/-! ## What is loaded -/

theorem hasWaibcMagic_iff {file : Option (List Byte)} :
    waiFileHasWaibcMagic file = true ↔ ∃ rest, file = some (waiBytecodeMagic ++ rest) := by
  cases file with
  | none => exact ⟨nofun, nofun⟩
  | some content =>
    rw [waiFileHasWaibcMagic, decide_eq_true_eq]
    constructor
    · intro h
      exact ⟨content.drop 4, by rw [← h, List.take_append_drop]⟩
    · rintro ⟨rest, h⟩
      rw [Option.some.inj h]
      rfl

section Load
variable {load : LoadAlloc} {fs : FileSystem} {path : Text} {content : List Byte}
  {out : OwnedProgram} {info : Option WaiBytecodeInfo}

/-- The text of a bytecode file ends in its header, and is no source. -/
theorem not_assembled_of_encoding {alloc : AssemblerAlloc} (flags : BitVec 32)
    (code : List WaiInstruction) :
    (waiAssembleSource alloc (textOf (encodeWithFlags flags code))).1.error ≠ .ok := by
  intro h
  have htext : textOf (encodeWithFlags flags code) = ['W', 'A', 'I', '0', Char.ofNat 5] := rfl
  rw [htext] at h
  obtain ⟨items, hreads, _⟩ := assembled_items h
  have hlines : sourceLines ['W', 'A', 'I', '0', Char.ofNat 5] =
      [['W', 'A', 'I', '0', Char.ofNat 5]] := by decide
  rw [hlines] at hreads
  cases hreads with
  | blank hblank _ => cases hblank 'W' List.mem_cons_self
  | item hitem _ =>
    have hnone : parseTokens (tokensOf ['W', 'A', 'I', '0', Char.ofNat 5]) = none := by decide
    obtain ⟨_, _, hparse, _⟩ := (lineItem_of_no_colon (by decide)).mp hitem
    cases hnone.symm.trans hparse

/-- A source that is accepted and begins with the magic is refused. -/
theorem load_magic {alloc : AssemblerAlloc} (hfile : fs path = some content)
    (hmagic : waiFileHasWaibcMagic (some content) = true)
    (hok : (waiAssembleSource alloc (textOf content)).1.error = .ok) :
    (loadProgramAuto load fs path out info).1 = .err := by
  rw [loadProgramAuto, hfile, if_pos hmagic]
  split
  · next program info' hread =>
    obtain ⟨flags, code, _, rfl, _⟩ := read_ok hread
    exact absurd hok (not_assembled_of_encoding flags code)
  · rfl

/-- A source that is accepted and does not begin with the magic is assembled. -/
theorem load_source {alloc : AssemblerAlloc} (hload : load.Grants) (hfile : fs path = some content)
    (hmagic : waiFileHasWaibcMagic (some content) = false)
    (hok : (waiAssembleSource alloc (textOf content)).1.error = .ok) :
    loadProgramAuto load fs path out info =
      (.ok, (waiAssembleSource alloc (textOf content)).2, info.map fun _ => zeroInfo) := by
  have hassemble : waiAssembleFile load.assembler (some content) out =
      waiAssembleSource alloc (textOf content) := by
    rw [waiAssembleFile, hload.assembler.buffer, Bool.not_true, if_neg Bool.false_ne_true]
    exact assembleSource_of_grants hload.assembler hok
  rw [loadProgramAuto, hfile, hmagic, if_neg Bool.false_ne_true]
  simp only [hassemble]
  rw [if_neg (not_not.mpr hok)]

/-- The bytes of a valid program load as the program. -/
theorem load_bytecode {program : OwnedProgram} (out : OwnedProgram)
    (info : Option WaiBytecodeInfo) (hload : load.Grants)
    (hfile : fs path = some (encodeProgram program)) (hvalid : validateProgram program = .ok) :
    (loadProgramAuto load fs path out info).1 = .ok ∧
      (loadProgramAuto load fs path out info).2.1.instructions = program.instructions := by
  have hmagic : waiFileHasWaibcMagic (some (encodeProgram program)) = true :=
    hasWaibcMagic_iff.mpr ⟨_, rfl⟩
  rw [loadProgramAuto, hfile, if_pos hmagic, read_encodeProgram (hload.code _) hvalid]
  exact ⟨rfl, OwnedProgram.ofArray_instructions _ _⟩

end Load

/-- Both files load, as programs of the same instructions. -/
def LoadsSame (load : LoadAlloc) (fs fs' : FileSystem) (input output : Text) : Prop :=
  ∀ out out' info info',
    (loadProgramAuto load fs input out info).1 = .ok ∧
    (loadProgramAuto load fs' output out' info').1 = .ok ∧
    (loadProgramAuto load fs input out info).2.1.instructions =
      (loadProgramAuto load fs' output out' info').2.1.instructions

/-- When `asm` succeeds on a source, the source and the written bytecode load as the same
program exactly when the source does not begin with the magic `WAI0`. -/
theorem loading_agrees_iff {alloc : AssemblerAlloc} {io : WriteIo} {fs fs' : FileSystem}
    {argv0 command input option output : Text} {load : LoadAlloc}
    (hasm : commandAsm alloc io fs [argv0, command, input, option, output] = (.ok, fs'))
    (hload : load.Grants) :
    LoadsSame load fs fs' input output ↔
      ¬ ∃ rest, fs input = some (waiBytecodeMagic ++ rest) := by
  obtain ⟨content, hcontent, hok, hvalid, rfl⟩ := commandAsm_ok hasm
  rw [← hasWaibcMagic_iff, Bool.not_eq_true, hcontent]
  constructor
  · intro hsame
    by_contra hmagic
    rw [Bool.not_eq_false] at hmagic
    obtain ⟨hloaded, _⟩ := hsame waiProgramInit waiProgramInit none none
    rw [load_magic hcontent hmagic hok] at hloaded
    cases hloaded
  · intro hmagic out out' info info'
    obtain ⟨hloaded, hinstructions⟩ :=
      load_bytecode out' info' hload (Function.update_self output _ fs) hvalid
    rw [load_source hload hcontent hmagic hok]
    exact ⟨rfl, hloaded, hinstructions.symm⟩

/-- Memory that never runs out. -/
def LoadAlloc.unlimited : LoadAlloc where
  assembler := .unlimited
  code := fun _ => true

/-- A directory with the one file `s`. -/
def onlySource (content : List Byte) : FileSystem :=
  Function.update (fun _ => none) ['s'] (some content)

/-- `waivm asm s -o b` -/
def asmArguments : List Text :=
  [['w', 'a', 'i', 'v', 'm'], ['a', 's', 'm'], ['s'], ['-', 'o'], ['b']]

/-- The files after `waivm asm s -o b`. -/
def afterAsm (content : List Byte) : FileSystem :=
  (commandAsm .unlimited (.perfect 100) (onlySource content) asmArguments).2

/-- The source `halt`. -/
def haltSource : List Byte := [0x68, 0x61, 0x6c, 0x74, 0x0a]

theorem loading_agrees_iff_halt :
    LoadsSame .unlimited (onlySource haltSource) (afterAsm haltSource) ['s'] ['b'] := by
  have hasm : commandAsm .unlimited (.perfect 100) (onlySource haltSource) asmArguments =
      (.ok, afterAsm haltSource) := Prod.ext (by decide +kernel) rfl
  have hload : LoadAlloc.unlimited.Grants := ⟨AssemblerAlloc.unlimited_grants, fun _ => rfl⟩
  refine (loading_agrees_iff hasm hload).mpr ?_
  rintro ⟨rest, h⟩
  cases h

/-- The source of a label `WAI0` and `halt`. -/
def magicSource : List Byte :=
  [0x57, 0x41, 0x49, 0x30, 0x3a, 0x0a, 0x68, 0x61, 0x6c, 0x74, 0x0a]

/-- `asm` accepts the source, and every command that loads it refuses it. -/
theorem magic_source_refused :
    (commandAsm .unlimited (.perfect 100) (onlySource magicSource) asmArguments).1 = .ok ∧
    (loadProgramAuto .unlimited (onlySource magicSource) ['s'] waiProgramInit none).1 = .err ∧
    ¬ LoadsSame .unlimited (onlySource magicSource) (afterAsm magicSource) ['s'] ['b'] := by
  have hrefused : (loadProgramAuto .unlimited (onlySource magicSource) ['s'] waiProgramInit none).1 =
      .err := by decide +kernel
  refine ⟨by decide +kernel, hrefused, fun hsame => ?_⟩
  have hloaded := (hsame waiProgramInit waiProgramInit none none).1
  cases hrefused.symm.trans hloaded

end Waivm
