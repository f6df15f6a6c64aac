import Waivm.BytecodeFile

/-!
# Torn and refused writes

The writer streams the header and then the records, so a write that stops early
leaves a prefix of the encoding at the path. The header says how many records
follow, and this is what the reader tells every such file from.

Results:
1. `write_stores`: what is at the path after a write.
2. `read_wrong_length`: the reader refuses a header with too few or too many
   bytes behind it.
3. `torn_writes_refused`: so it refuses every cut and every extension of an
   encoding.
-/

namespace Waivm

open LittleEndian (Byte)

/-! ## 1. What a write leaves in the file -/

section Write
variable {io : WriteIo} {written : List Byte}

theorem fwrite_stores {buf : List Byte} : (io.fwrite written buf).2 <+: written ++ buf :=
  List.take_prefix _ _

theorem fclose_stores : (io.fclose written).2 <+: written := by
  unfold WriteIo.fclose
  split
  · exact List.prefix_refl _
  · exact List.take_prefix _ _

/-- The records that reach the stream are a prefix of those to be written. -/
theorem writeRecords_stores {code : List WaiInstruction} :
    (writeRecords io written code).2 <+: written ++ code.flatMap encodeInstruction := by
  induction code generalizing written with
  | nil => exact List.prefix_append _ _
  | cons ins rest ih =>
    have hprefix := @fwrite_stores io written (encodeInstruction ins)
    rw [writeRecords, List.flatMap_cons, ← List.append_assoc]
    split
    · -- the loop stops at the first record that is not written whole
      next stored hwrite =>
      rw [hwrite] at hprefix
      exact hprefix.trans (List.prefix_append _ _)
    · next stored hwrite =>
      rw [← (fwrite_true_iff.mp hwrite).2]
      exact ih

/-- Once the file is open, the path holds a prefix of the encoding, whatever fails then. -/
theorem write_stores {program : OwnedProgram} (hv : validateProgram program = .ok)
    (hopens : io.opens = true) (file : Option (List Byte)) :
    ∃ stored, (waiBytecodeWriteFile io file program).2 = some stored ∧
      stored <+: encodeProgram program := by
  have hheader := @fwrite_stores io [] (encodeHeader (BitVec.ofNat 64 program.count))
  unfold waiBytecodeWriteFile
  rw [hv]
  simp only [hopens, Bool.not_true, Bool.false_eq_true, if_false]
  split
  · -- on every error path the stream is closed, which can cut the file once more
    next stored hwrite =>
    rw [hwrite] at hheader
    exact ⟨_, rfl, fclose_stores.trans (hheader.trans (List.prefix_append _ _))⟩
  · next stored hwrite =>
    have hrecords := @writeRecords_stores io stored program.instructions
    rw [(fwrite_true_iff.mp hwrite).2] at hrecords
    rw [(fwrite_true_iff.mp hwrite).2]
    split
    · next stored' hwrites =>
      rw [hwrites] at hrecords
      exact ⟨_, rfl, fclose_stores.trans hrecords⟩
    · next stored' hwrites =>
      rw [hwrites] at hrecords
      have hclose := (@fclose_stores io stored').trans hrecords
      split
      · next stored'' hstored =>
        rw [hstored] at hclose
        exact ⟨_, rfl, hclose⟩
      · next stored'' hstored =>
        rw [hstored] at hclose
        exact ⟨_, rfl, hclose⟩

end Write

/-! ## 2. What the reader makes of it -/

section Read
variable {alloc : Nat → Bool} {flags : BitVec 32} {codeCount : BitVec 64} {content rest : List Byte}
  {out : OwnedProgram} {outInfo : Option WaiBytecodeInfo}

theorem length_encodeRecords (code : List WaiInstruction) :
    (code.flatMap encodeInstruction).length = code.length * waiBytecodeInstructionSize := by
  induction code with
  | nil => rfl
  | cons ins rest ih =>
    rw [List.flatMap_cons, List.length_append, length_encodeInstruction, ih, List.length_cons,
      Nat.succ_mul, Nat.add_comm]

theorem read_short (h : content.length < waiBytecodeHeaderSize) :
    (waiBytecodeReadFile alloc (some content) out outInfo).1 = .errParse := by
  simp only [waiBytecodeReadFile, h, if_true]

/-- The reader refuses a header with another number of bytes behind it than its records take. -/
theorem read_wrong_length (halloc : alloc codeCount.toNat = true)
    (hle : codeCount.toNat ≤ maxInstructions)
    (hrest : rest.length ≠ codeCount.toNat * waiBytecodeInstructionSize) :
    (waiBytecodeReadFile alloc (some (headerBytes flags codeCount ++ rest)) out outInfo).1 =
      .errParse := by
  have hlen : ¬ (headerBytes flags codeCount ++ rest).length < waiBytecodeHeaderSize :=
    Nat.not_lt.mpr (length_headerBytes.symm ▸ (List.prefix_append _ _).length_le)
  have hdecode : decodeHeader (headerBytes flags codeCount) =
      .ok (headerInfo flags codeCount hle) :=
    (decodeHeader_ok_iff length_headerBytes).mpr ⟨flags, _, hle, rfl, rfl⟩
  unfold waiBytecodeReadFile
  simp only [hlen, if_false, take_header, hdecode, halloc, drop_header, headerInfo,
    Bool.not_true, Bool.false_eq_true, and_false]
  cases hread : readRecords codeCount.toNat rest with
  | none => rfl
  | some read =>
    obtain ⟨code, trailing⟩ := read
    -- the records are there, so it is a byte behind them that the reader finds
    have htrailing : trailing ≠ [] := by
      rintro rfl
      apply hrest
      rw [readRecords_eq_some_iff.mp hread, List.append_nil, length_encodeRecords,
        code.toList_length]
    simp only [if_pos htrailing]

end Read

/-! ## 3. Cuts and extensions of an encoding -/

/-- Where there is memory for the instructions of `program`, the reader returns `WAI_ERR_PARSE`
for the file `content`. -/
def RefusedFor (program : OwnedProgram) (content : List Byte) : Prop :=
  ∀ alloc out outInfo, alloc program.count = true →
    (waiBytecodeReadFile alloc (some content) out outInfo).1 = .errParse

section Encodings
variable {program : OwnedProgram} {rest : List Byte}

theorem refused_wrong_length (flags : BitVec 32)
    (hrest : rest.length ≠ program.count * waiBytecodeInstructionSize) :
    RefusedFor program (headerBytes flags (BitVec.ofNat 64 program.count) ++ rest) := by
  have hcount : (BitVec.ofNat 64 program.count).toNat = program.count := by
    rw [BitVec.toNat_ofNat, Nat.mod_eq_of_lt (Nat.lt_of_le_of_lt program.count_le maxInstructions_lt)]
  intro alloc out outInfo halloc
  rw [← hcount] at halloc hrest
  exact read_wrong_length halloc (hcount.symm ▸ program.count_le) hrest

theorem length_records (program : OwnedProgram) :
    (program.instructions.flatMap encodeInstruction).length =
      program.count * waiBytecodeInstructionSize := by
  rw [length_encodeRecords, program.count_eq_length]

/-- The reader refuses every file that a write of `program` can leave short of its end. -/
theorem refused_of_cut {cut : List Byte} (hcut : cut <+: encodeProgram program)
    (hne : cut ≠ encodeProgram program) : RefusedFor program cut := by
  rcases Nat.lt_or_ge cut.length waiBytecodeHeaderSize with hshort | hlong
  · exact fun alloc out outInfo _ => read_short hshort
  · -- the header is complete, so the cut is within the records
    obtain ⟨rest, rfl⟩ : encodeHeader (BitVec.ofNat 64 program.count) <+: cut :=
      List.prefix_of_prefix_length_le (List.prefix_append _ _) hcut (length_headerBytes ▸ hlong)
    refine refused_wrong_length 0 fun hlen => hne (hcut.eq_of_length ?_)
    rw [encodeProgram, List.length_append, List.length_append, length_records, hlen]

/-- The reader refuses an encoding with more bytes behind it. -/
theorem refused_of_suffix {suffix : List Byte} (hne : suffix ≠ []) :
    RefusedFor program (encodeProgram program ++ suffix) := by
  rw [encodeProgram, List.append_assoc]
  refine refused_wrong_length 0 fun hlen => hne ?_
  rw [List.length_append, length_records] at hlen
  exact List.eq_nil_of_length_eq_zero (Nat.add_left_cancel hlen)

end Encodings

/-- A program that is not valid leaves the file alone; a write of a valid one that stops early
leaves a file that the reader refuses, as it refuses every cut and every extension of the
encoding. -/
theorem torn_writes_refused (program : OwnedProgram) :
    (validateProgram program ≠ .ok → ∀ io file,
      waiBytecodeWriteFile io file program = (validateProgram program, file)) ∧
    (validateProgram program = .ok → ∀ io file, io.opens = true → ∃ stored,
      (waiBytecodeWriteFile io file program).2 = some stored ∧ stored <+: encodeProgram program ∧
      ((waiBytecodeWriteFile io file program).1 = .ok → stored = encodeProgram program) ∧
      (stored ≠ encodeProgram program → RefusedFor program stored)) ∧
    (∀ cut, cut <+: encodeProgram program → cut ≠ encodeProgram program →
      RefusedFor program cut) ∧
    (∀ suffix, suffix ≠ [] → RefusedFor program (encodeProgram program ++ suffix)) := by
  refine ⟨fun hv io file => write_refused hv, fun hv io file hopens => ?_,
    fun cut => refused_of_cut, fun suffix => refused_of_suffix⟩
  obtain ⟨stored, hstored, hcut⟩ := write_stores hv hopens file
  refine ⟨stored, hstored, hcut, fun hok => ?_, refused_of_cut hcut⟩
  obtain ⟨_, _, hfull⟩ := write_ok_iff.mp (Prod.ext hok hstored)
  exact Option.some.inj hfull

end Waivm
