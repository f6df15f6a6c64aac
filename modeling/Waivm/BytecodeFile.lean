import Waivm.Bytecode

/-!
# Writing and reading bytecode files (`bytecode.c`)

A file is its bytes, or `none` where `fopen` for reading fails. Writing goes
through a `WriteIo`, which says what the stream takes and what reaches the file
when something fails.

Results:
1. `write_spec`: what the writer leaves in the file when nothing fails.
2. `read_encoding`, `read_ok_iff`: the reader accepts the encodings of programs
   of well-formed instructions, with any flags, and gives the program back.
3. `bytecode_round_trip`: what was written is read back, field by field.
4. `loads_exactly_iff`: the reader accepts exactly the writer's files among
   those with zero flags; `loader_ignores_flags`: a file it accepts that no
   program is written to.
-/

namespace Waivm

open LittleEndian (Byte bytes wordAt)

/-! ## 1. Writing -/

/-- How writing a file goes: whether `fopen` succeeds, the number of bytes that
`fwrite` takes before it comes up short, whether `fclose` succeeds, and the
number of bytes that are in the file when it does not. -/
structure WriteIo where
  opens : Bool
  accepts : Nat
  closes : Bool
  stores : Nat

/-- `fwrite(buf, 1, sizeof(buf), file) == sizeof(buf)`, and the bytes taken so far. -/
def WriteIo.fwrite (io : WriteIo) (written buf : List Byte) : Bool × List Byte :=
  (written.length + buf.length ≤ io.accepts, (written ++ buf).take io.accepts)

/-- `fclose(file) == 0`, and the bytes in the file. -/
def WriteIo.fclose (io : WriteIo) (written : List Byte) : Bool × List Byte :=
  (io.closes, if io.closes then written else written.take io.stores)

/-- The loop of `wai_bytecode_write_file`. -/
def writeRecords (io : WriteIo) : List Byte → List WaiInstruction → Bool × List Byte
  | written, [] => (true, written)
  | written, ins :: rest =>
    match io.fwrite written (encodeInstruction ins) with
    | (false, written) => (false, written)
    | (true, written) => writeRecords io written rest

/-- `wai_bytecode_write_file`: the status, and what is at the path afterwards.
`file` is what was there before. -/
def waiBytecodeWriteFile (io : WriteIo) (file : Option (List Byte)) (program : OwnedProgram) :
    WaiErrorCode × Option (List Byte) :=
  match validateProgram program with
  | .ok =>
    if !io.opens then (.errIo, file)
    else
      match io.fwrite [] (encodeHeader (BitVec.ofNat 64 program.count)) with
      | (false, written) => (.errIo, some (io.fclose written).2)
      | (true, written) =>
        match writeRecords io written program.instructions with
        | (false, written) => (.errIo, some (io.fclose written).2)
        | (true, written) =>
          match io.fclose written with
          | (false, stored) => (.errIo, some stored)
          | (true, stored) => (.ok, some stored)
  | status => (status, file)

/-- The bytes of a program: its header and its records. -/
def encodeProgram (program : OwnedProgram) : List Byte :=
  encodeHeader (BitVec.ofNat 64 program.count) ++ program.instructions.flatMap encodeInstruction

/-- Nothing fails when `n` bytes are written. -/
structure WriteIo.Permits (io : WriteIo) (n : Nat) : Prop where
  opens : io.opens = true
  accepts : n ≤ io.accepts
  closes : io.closes = true

section Write
variable {io : WriteIo}

/-- A write succeeds exactly when everything is taken. -/
theorem fwrite_true_iff {written written' buf : List Byte} :
    io.fwrite written buf = (true, written') ↔
      (written ++ buf).length ≤ io.accepts ∧ written' = written ++ buf := by
  unfold WriteIo.fwrite
  rw [Prod.mk.injEq, decide_eq_true_eq, List.length_append]
  constructor
  · rintro ⟨hlen, rfl⟩
    exact ⟨hlen, List.take_of_length_le (List.length_append ▸ hlen)⟩
  · rintro ⟨hlen, rfl⟩
    exact ⟨hlen, List.take_of_length_le (List.length_append ▸ hlen)⟩

theorem writeRecords_true_iff {written written' : List Byte} {code : List WaiInstruction}
    (h : written.length ≤ io.accepts) :
    writeRecords io written code = (true, written') ↔
      (written ++ code.flatMap encodeInstruction).length ≤ io.accepts ∧
        written' = written ++ code.flatMap encodeInstruction := by
  induction code generalizing written with
  | nil =>
    rw [writeRecords, List.flatMap_nil, List.append_nil]
    exact ⟨fun he => ⟨h, (Prod.mk.inj he).2.symm⟩, fun he => he.2 ▸ rfl⟩
  | cons ins rest ih =>
    rw [writeRecords, List.flatMap_cons, ← List.append_assoc]
    constructor
    · intro he
      split at he
      · cases he
      · next hwrite =>
        obtain ⟨hlen, rfl⟩ := fwrite_true_iff.mp hwrite
        exact (ih hlen).mp he
    · intro he
      have hlen : (written ++ encodeInstruction ins).length ≤ io.accepts :=
        Nat.le_trans (List.prefix_append _ _).length_le he.1
      rw [fwrite_true_iff.mpr ⟨hlen, rfl⟩]
      exact (ih hlen).mpr he

/-- The writer succeeds on the valid programs when nothing fails, and leaves
their encoding. -/
theorem write_ok_iff {file content : Option (List Byte)} {program : OwnedProgram} :
    waiBytecodeWriteFile io file program = (.ok, content) ↔
      validateProgram program = .ok ∧ io.Permits (encodeProgram program).length ∧
        content = some (encodeProgram program) := by
  unfold waiBytecodeWriteFile
  constructor
  · intro h
    split at h
    · next hv =>
      split at h
      · cases h
      · next hopen =>
        split at h
        · cases h
        · next hheader =>
          split at h
          · cases h
          · -- every write was complete, so the stream holds the encoding
            next hrecords =>
            obtain ⟨hlen, rfl⟩ := fwrite_true_iff.mp hheader
            obtain ⟨hlen', rfl⟩ := (writeRecords_true_iff hlen).mp hrecords
            unfold WriteIo.fclose at h
            cases hc : io.closes with
            | false => rw [hc] at h; cases h
            | true =>
              rw [hc] at h
              cases h
              exact ⟨hv, ⟨by simpa using hopen, hlen', hc⟩, rfl⟩
    · next hne => exact absurd (congrArg Prod.fst h) hne
  · rintro ⟨hv, hio, rfl⟩
    have hheader : ([] ++ encodeHeader (BitVec.ofNat 64 program.count)).length ≤ io.accepts :=
      Nat.le_trans (List.prefix_append _ _).length_le hio.accepts
    have hrecords : writeRecords io ([] ++ encodeHeader (BitVec.ofNat 64 program.count))
        program.instructions = (true, encodeProgram program) :=
      (writeRecords_true_iff hheader).mpr ⟨hio.accepts, rfl⟩
    simp only [hv, hio.opens, fwrite_true_iff.mpr ⟨hheader, rfl⟩, hrecords, WriteIo.fclose,
      hio.closes, if_true]
    rfl

/-- A program that is not valid is refused, and the file is left alone. -/
theorem write_refused {file : Option (List Byte)} {program : OwnedProgram}
    (hv : validateProgram program ≠ .ok) :
    waiBytecodeWriteFile io file program = (validateProgram program, file) := by
  unfold waiBytecodeWriteFile
  split
  · next h => exact absurd h hv
  · rfl

end Write

/-! ## 2. Reading -/

/-- `wai_bytecode_read_file`. `file` is what the stream gives until it ends or
fails, `alloc n` says whether `calloc` gives an array of `n` instructions, `out`
and `outInfo` are `*out_program` and `*out_info` on entry; `outInfo` is `none`
for a `NULL` pointer. -/
def waiBytecodeReadFile (alloc : Nat → Bool) (file : Option (List Byte)) (out : OwnedProgram)
    (outInfo : Option WaiBytecodeInfo) : WaiErrorCode × OwnedProgram × Option WaiBytecodeInfo :=
  match file with
  | none => (.errIo, out, outInfo)
  | some content =>
    if content.length < waiBytecodeHeaderSize then (.errParse, out, outInfo)
    else
      match decodeHeader (content.take waiBytecodeHeaderSize) with
      | .error status => (status, out, outInfo)
      | .ok info =>
        if 0 < info.codeCount ∧ !alloc info.codeCount.toNat then
          (.errOom, waiProgramInit, outInfo)
        else
          match readRecords info.codeCount.toNat (content.drop waiBytecodeHeaderSize) with
          | none => (.errParse, waiProgramInit, outInfo)
          | some (code, trailing) =>
            if trailing ≠ [] then (.errParse, waiProgramInit, outInfo)
            else
              let program := OwnedProgram.ofArray code.toList
                (code.toList_length.symm ▸ info.code_count_le)
              match validateProgram program with
              | .ok => (.ok, program, outInfo.map fun _ => info)
              | status => (status, waiProgramInit, outInfo)

/-- `wai_bytecode_read_info` -/
def waiBytecodeReadInfo (file : Option (List Byte)) (outInfo : WaiBytecodeInfo) :
    WaiErrorCode × WaiBytecodeInfo :=
  match file with
  | none => (.errIo, outInfo)
  | some content =>
    if content.length < waiBytecodeHeaderSize then (.errParse, outInfo)
    else
      match decodeHeader (content.take waiBytecodeHeaderSize) with
      | .error status => (status, outInfo)
      | .ok info => (.ok, info)

/-- `wai_file_has_waibc_magic` -/
def waiFileHasWaibcMagic (file : Option (List Byte)) : Bool :=
  match file with
  | none => false
  | some content => content.take 4 = waiBytecodeMagic

/-- The bytes that hold the program of `code`, with `flags` in the header. -/
def encodeWithFlags (flags : BitVec 32) (code : List WaiInstruction) : List Byte :=
  headerBytes flags (BitVec.ofNat 64 code.length) ++ code.flatMap encodeInstruction

section Read
variable {alloc : Nat → Bool} {content : List Byte} {flags : BitVec 32}
  {code : List WaiInstruction} {out out' : OwnedProgram} {outInfo outInfo' : Option WaiBytecodeInfo}

theorem toNat_ofNat_length (h : code.length ≤ maxInstructions) :
    (BitVec.ofNat 64 code.length).toNat = code.length := by
  rw [BitVec.toNat_ofNat, Nat.mod_eq_of_lt (Nat.lt_of_le_of_lt h maxInstructions_lt)]

theorem take_header (flags : BitVec 32) (codeCount : BitVec 64) (rest : List Byte) :
    (headerBytes flags codeCount ++ rest).take waiBytecodeHeaderSize =
      headerBytes flags codeCount := by
  rw [← @length_headerBytes flags codeCount]
  exact List.take_left

theorem drop_header (flags : BitVec 32) (codeCount : BitVec 64) (rest : List Byte) :
    (headerBytes flags codeCount ++ rest).drop waiBytecodeHeaderSize = rest := by
  rw [← @length_headerBytes flags codeCount]
  exact List.drop_left

/-- The reader gives the program of an encoding back. -/
theorem read_encoding (halloc : alloc code.length = true) (h : code.length ≤ maxInstructions)
    (hv : validateProgram (.ofArray code h) = .ok) :
    waiBytecodeReadFile alloc (some (encodeWithFlags flags code)) out outInfo =
      (.ok, .ofArray code h, outInfo.map fun _ =>
        headerInfo flags (BitVec.ofNat 64 code.length) ((toNat_ofNat_length h).symm ▸ h)) := by
  have hcount := toNat_ofNat_length h
  have hle : (BitVec.ofNat 64 code.length).toNat ≤ maxInstructions := hcount.symm ▸ h
  have hlen : ¬ (headerBytes flags (BitVec.ofNat 64 code.length) ++
      code.flatMap encodeInstruction).length < waiBytecodeHeaderSize :=
    Nat.not_lt.mpr (length_headerBytes.symm ▸ (List.prefix_append _ _).length_le)
  have hdecode : decodeHeader (headerBytes flags (BitVec.ofNat 64 code.length)) =
      .ok (headerInfo flags (BitVec.ofNat 64 code.length) hle) :=
    (decodeHeader_ok_iff length_headerBytes).mpr ⟨flags, _, hle, rfl, rfl⟩
  have hread : readRecords (BitVec.ofNat 64 code.length).toNat (code.flatMap encodeInstruction) =
      some (⟨code, hcount.symm⟩, []) :=
    readRecords_eq_some_iff.mpr (List.append_nil _).symm
  unfold waiBytecodeReadFile encodeWithFlags
  simp only [hlen, if_false, take_header, hdecode, hcount, halloc, drop_header, headerInfo, hread,
    Bool.not_true, Bool.false_eq_true, and_false, ne_eq, not_true_eq_false]
  show (match validateProgram (.ofArray code h) with
    | .ok => _
    | status => _) = _
  rw [hv]
  rfl

/-- What the reader accepts. -/
theorem read_ok {result : OwnedProgram × Option WaiBytecodeInfo}
    (hread : waiBytecodeReadFile alloc (some content) out outInfo = (.ok, result)) :
    ∃ flags code h, content = encodeWithFlags flags code ∧
      validateProgram (.ofArray code h) = .ok := by
  unfold waiBytecodeReadFile at hread
  simp only at hread
  split at hread
  · cases hread
  · next hlen =>
    have hheader : (content.take waiBytecodeHeaderSize).length = waiBytecodeHeaderSize :=
      List.length_take_of_le (Nat.not_lt.mp hlen)
    cases hdecode : decodeHeader (content.take waiBytecodeHeaderSize) with
    | error status =>
      rw [hdecode] at hread
      cases hread
      exact absurd hdecode decodeHeader_ne_ok
    | ok info =>
      obtain ⟨flags, codeCount, hle, htake, rfl⟩ := (decodeHeader_ok_iff hheader).mp hdecode
      rw [hdecode] at hread
      simp only at hread
      split at hread
      · cases hread
      · split at hread
        · cases hread
        · next code trailing hrecords =>
          split at hread
          · cases hread
          · -- header and records together are the whole file
            next htrailing =>
            have hcontent : content = headerBytes flags codeCount ++
                code.toList.flatMap encodeInstruction := by
              have hrest := readRecords_eq_some_iff.mp hrecords
              rw [Classical.not_not.mp htrailing, List.append_nil] at hrest
              rw [← htake, ← hrest, List.take_append_drop]
            have hcount : BitVec.ofNat 64 code.toList.length = codeCount := by
              rw [code.toList_length]
              exact (BitVec.ofNat_toNat 64 codeCount).trans (BitVec.setWidth_eq codeCount)
            refine ⟨flags, code.toList, code.toList_length.symm ▸ hle, ?_, ?_⟩
            · rw [encodeWithFlags, hcount]
              exact hcontent
            · split at hread
              · next hv => exact hv
              · next hne => exact absurd (congrArg Prod.fst hread) hne

/-- The reader accepts exactly the encodings of valid programs, with any flags. -/
theorem read_ok_iff (halloc : ∀ n, alloc n = true) :
    (waiBytecodeReadFile alloc (some content) out outInfo).1 = .ok ↔
      ∃ flags code h, content = encodeWithFlags flags code ∧
        validateProgram (.ofArray code h) = .ok := by
  constructor
  · intro h
    exact read_ok (Prod.ext h rfl)
  · rintro ⟨flags, code, h, rfl, hv⟩
    rw [read_encoding (halloc _) h hv]

theorem encodeProgram_eq (program : OwnedProgram) :
    encodeProgram program = encodeWithFlags 0 program.instructions := by
  rw [encodeProgram, encodeHeader, encodeWithFlags, program.count_eq_length]

/-- The validator looks at nothing but the instructions. -/
theorem validateProgram_ofArray (program : OwnedProgram)
    (h : program.instructions.length ≤ maxInstructions) :
    validateProgram (.ofArray program.instructions h) = validateProgram program := by
  unfold validateProgram
  rw [OwnedProgram.ofArray_instructions, program.count_eq_length]
  rfl

/-- The reader gives a written program back. -/
theorem read_encodeProgram {program : OwnedProgram} (halloc : alloc program.count = true)
    (hv : validateProgram program = .ok) :
    waiBytecodeReadFile alloc (some (encodeProgram program)) out outInfo =
      (.ok, .ofArray program.instructions program.length_le, outInfo.map fun _ =>
        headerInfo 0 (BitVec.ofNat 64 program.instructions.length)
          ((toNat_ofNat_length program.length_le).symm ▸ program.length_le)) := by
  rw [encodeProgram_eq]
  rw [program.count_eq_length] at halloc
  exact read_encoding halloc program.length_le ((validateProgram_ofArray program _).trans hv)

end Read

/-! ## 3. The round trip -/

/-- Writing a program succeeds, when nothing fails, exactly when the validator
accepts it; reading the file gives the same instructions and a header with their
number, no flags and no data. -/
theorem bytecode_round_trip (program : OwnedProgram) {io : WriteIo}
    (hio : io.Permits (encodeProgram program).length) (file : Option (List Byte)) :
    ((waiBytecodeWriteFile io file program).1 = .ok ↔ validateProgram program = .ok) ∧
    ∀ content, waiBytecodeWriteFile io file program = (.ok, content) →
      ∀ alloc out outInfo, alloc program.count = true → ∃ out' info,
        waiBytecodeReadFile alloc content out (some outInfo) = (.ok, out', some info) ∧
        out'.instructions = program.instructions ∧ out'.count = program.count ∧
        info.codeCount.toNat = program.count ∧ info.flags = 0 ∧ info.dataSize = 0 := by
  constructor
  · constructor
    · intro h
      exact (write_ok_iff.mp (Prod.ext h rfl)).1
    · intro hv
      rw [write_ok_iff.mpr ⟨hv, hio, rfl⟩]
  · intro content hwrite alloc out outInfo halloc
    obtain ⟨hv, _, rfl⟩ := write_ok_iff.mp hwrite
    refine ⟨_, _, read_encodeProgram halloc hv, OwnedProgram.ofArray_instructions _ _,
      program.count_eq_length.symm, ?_, rfl, rfl⟩
    rw [program.count_eq_length]
    exact toNat_ofNat_length program.length_le

/-- A stream on which every write succeeds. -/
def WriteIo.perfect (n : Nat) : WriteIo where
  opens := true
  accepts := n
  closes := true
  stores := 0

theorem WriteIo.perfect_permits (n : Nat) : (WriteIo.perfect n).Permits n :=
  ⟨rfl, le_rfl, rfl⟩

/-- The round trip of `mov r1, -2` and `halt`, with the unused operand bytes of
the `halt` set. -/
theorem bytecode_round_trip_mov :
    ∃ program : OwnedProgram, program.instructions = [⟨1, 1, 0, 0, -2⟩, ⟨15, 7, 9, 0, 3⟩] ∧
      (WriteIo.perfect (encodeProgram program).length).Permits (encodeProgram program).length ∧
      validateProgram program = .ok ∧
      (waiBytecodeWriteFile (.perfect (encodeProgram program).length) none program).1 = .ok := by
  refine ⟨.ofArray [⟨1, 1, 0, 0, -2⟩, ⟨15, 7, 9, 0, 3⟩] (by decide), rfl,
    WriteIo.perfect_permits _, rfl, ?_⟩
  exact (bytecode_round_trip _ (WriteIo.perfect_permits _) none).1.mpr rfl

/-! ## 4. Exactly the writer's files -/

/-- The writer leaves the bytes `content` for some program. -/
def WriterProduces (content : List Byte) : Prop :=
  ∃ io file program, waiBytecodeWriteFile io file program = (.ok, some content)

/-- The reader accepts `content` exactly when the writer produces it, and a
program that is read encodes to the file it was read from. -/
def LoadsExactly (alloc : Nat → Bool) (content : List Byte) : Prop :=
  ∀ out outInfo,
    ((waiBytecodeReadFile alloc (some content) out outInfo).1 = .ok ↔ WriterProduces content) ∧
    ∀ out' outInfo', waiBytecodeReadFile alloc (some content) out outInfo = (.ok, out', outInfo') →
      encodeProgram out' = content

/-- The flags in a header. -/
def flagsOf (content : List Byte) : BitVec 32 :=
  wordAt 32 4 content 12

/-- The file with other flags in its header. -/
def withFlags (flags : BitVec 32) (content : List Byte) : List Byte :=
  content.take 12 ++ (bytes 4 flags ++ content.drop 16)

section Exactly
variable {content : List Byte}

theorem writerProduces_iff :
    WriterProduces content ↔
      ∃ code h, content = encodeWithFlags 0 code ∧ validateProgram (.ofArray code h) = .ok := by
  constructor
  · rintro ⟨io, file, program, hwrite⟩
    obtain ⟨hv, _, hcontent⟩ := write_ok_iff.mp hwrite
    refine ⟨program.instructions, program.length_le, ?_, ?_⟩
    · rw [← encodeProgram_eq]
      exact Option.some.inj hcontent
    · rw [validateProgram_ofArray]
      exact hv
  · rintro ⟨code, h, rfl, hv⟩
    have hencode : encodeProgram (.ofArray code h) = encodeWithFlags 0 code := by
      rw [encodeProgram_eq, OwnedProgram.ofArray_instructions]
    refine ⟨.perfect (encodeWithFlags 0 code).length, none, .ofArray code h, ?_⟩
    refine write_ok_iff.mpr ⟨hv, ?_, congrArg some hencode.symm⟩
    rw [hencode]
    exact WriteIo.perfect_permits _

theorem flagsOf_encodeWithFlags (flags : BitVec 32) (code : List WaiInstruction) :
    flagsOf (encodeWithFlags flags code) = flags := by
  refine (LittleEndian.join_congr fun i hi => ?_).trans
    (LittleEndian.join_byteAt (n := 4) flags (by decide))
  interval_cases i <;> rfl

theorem withFlags_encodeWithFlags (flags flags' : BitVec 32) (code : List WaiInstruction) :
    withFlags flags (encodeWithFlags flags' code) = encodeWithFlags flags code :=
  rfl

/-- Putting the flags back that were there. -/
theorem withFlags_withFlags (flags : BitVec 32) (h : 16 ≤ content.length) :
    withFlags (flagsOf content) (withFlags flags content) = content := by
  have h12 : (content.take 12).length = 12 := List.length_take_of_le (Nat.le_trans (by decide) h)
  have h16 : (content.take 12 ++ bytes 4 flags).length = 16 := by
    rw [List.length_append, h12, LittleEndian.length_bytes]
  have hdrop : (content.take 12 ++ (bytes 4 flags ++ content.drop 16)).drop 16 =
      content.drop 16 := by
    rw [← List.append_assoc]
    exact List.drop_left' h16
  unfold withFlags flagsOf
  rw [List.take_left' h12, hdrop, LittleEndian.bytes_wordAt content h (by decide),
    show content.drop 16 = (content.drop 12).drop 4 by rw [List.drop_drop],
    List.take_append_drop, List.take_append_drop]

/-- A file is an encoding with some flags exactly when it is one of the writer's
files once its flags are cleared. -/
theorem accepts_iff_cleared {alloc : Nat → Bool} (halloc : ∀ n, alloc n = true)
    (out : OwnedProgram) (outInfo : Option WaiBytecodeInfo) :
    (waiBytecodeReadFile alloc (some content) out outInfo).1 = .ok ↔
      WriterProduces (withFlags 0 content) := by
  rw [read_ok_iff halloc, writerProduces_iff]
  constructor
  · rintro ⟨flags, code, h, rfl, hv⟩
    exact ⟨code, h, withFlags_encodeWithFlags 0 flags code, hv⟩
  · rintro ⟨code, h, hclear, hv⟩
    -- putting the flags of the file back gives an encoding with these flags
    have hlen : 16 ≤ content.length := by
      have hsize := congrArg List.length hclear
      simp only [withFlags, encodeWithFlags, List.length_append, length_headerBytes,
        LittleEndian.length_bytes, List.length_take, List.length_drop,
        waiBytecodeHeaderSize] at hsize
      omega
    refine ⟨flagsOf content, code, h, ?_, hv⟩
    have hback := withFlags_withFlags 0 hlen
    rw [hclear, withFlags_encodeWithFlags] at hback
    exact hback.symm

end Exactly

/-- The reader loads a file as the writer would have written it exactly when the
flags in its header are zero, or the file is no program even with zero flags. -/
theorem loads_exactly_iff {alloc : Nat → Bool} (halloc : ∀ n, alloc n = true)
    (content : List Byte) :
    LoadsExactly alloc content ↔
      flagsOf content = 0 ∨ ¬ WriterProduces (withFlags 0 content) := by
  have hflags : WriterProduces content → flagsOf content = 0 := fun h => by
    obtain ⟨code, _, rfl, _⟩ := writerProduces_iff.mp h
    exact flagsOf_encodeWithFlags 0 code
  constructor
  · intro h
    by_cases hclear : WriterProduces (withFlags 0 content)
    · obtain ⟨haccepts, _⟩ := h waiProgramInit none
      exact .inl (hflags (haccepts.mp ((accepts_iff_cleared halloc _ _).mpr hclear)))
    · exact .inr hclear
  · intro hcond out outInfo
    have hproduces : (waiBytecodeReadFile alloc (some content) out outInfo).1 = .ok →
        WriterProduces content := fun hok => by
      obtain ⟨flags, code, h, rfl, hv⟩ := (read_ok_iff halloc).mp hok
      rcases hcond with h0 | hno
      · rw [flagsOf_encodeWithFlags] at h0
        exact writerProduces_iff.mpr ⟨code, h, h0 ▸ rfl, hv⟩
      · exact absurd ((accepts_iff_cleared halloc out outInfo).mp hok) hno
    constructor
    · refine ⟨hproduces, fun hwriter => ?_⟩
      obtain ⟨code, h, rfl, hv⟩ := writerProduces_iff.mp hwriter
      rw [read_encoding (halloc _) h hv]
    · intro out' outInfo' hread
      obtain ⟨code, h, rfl, hv⟩ := writerProduces_iff.mp (hproduces (congrArg Prod.fst hread))
      rw [read_encoding (halloc _) h hv] at hread
      cases hread
      rw [encodeProgram_eq, OwnedProgram.ofArray_instructions]

/-- The header of the empty program, with a flag set. -/
def flaggedHeader : List Byte :=
  headerBytes 1 0

/-- The file of the program `halt`. -/
def haltFile : List Byte :=
  encodeWithFlags 0 [⟨15, 0, 0, 0, 0⟩]

theorem loads_exactly_iff_halt :
    (∀ n : Nat, (fun _ => true) n = true) ∧
    (waiBytecodeReadFile (fun _ => true) (some haltFile) waiProgramInit none).1 = .ok ∧
    LoadsExactly (fun _ => true) haltFile := by
  have hread : (waiBytecodeReadFile (fun _ => true) (some haltFile) waiProgramInit none).1 = .ok :=
    (read_ok_iff fun _ => rfl).mpr ⟨0, _, by decide, rfl, by decide⟩
  exact ⟨fun _ => rfl, hread,
    (loads_exactly_iff (fun _ => rfl) haltFile).mpr (.inl (flagsOf_encodeWithFlags 0 _))⟩

/-- The reader accepts a file that the writer produces for no program: nothing
tests the flags, and writing the loaded program again loses them. -/
theorem loader_ignores_flags :
    (waiBytecodeReadFile (fun _ => true) (some flaggedHeader) waiProgramInit none).1 = .ok ∧
    ¬ WriterProduces flaggedHeader ∧ ¬ LoadsExactly (fun _ => true) flaggedHeader := by
  have hread : (waiBytecodeReadFile (fun _ => true) (some flaggedHeader) waiProgramInit none).1 =
      .ok := (read_ok_iff fun _ => rfl).mpr ⟨1, [], Nat.zero_le _, rfl, rfl⟩
  have hno : ¬ WriterProduces flaggedHeader := by
    intro h
    obtain ⟨code, _, hcode, _⟩ := writerProduces_iff.mp h
    have hflags := congrArg flagsOf hcode
    rw [flagsOf_encodeWithFlags] at hflags
    exact absurd hflags (by decide)
  exact ⟨hread, hno, fun h => hno ((h waiProgramInit none).1.mp hread)⟩

end Waivm
