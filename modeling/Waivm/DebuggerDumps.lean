import Waivm.Debugger

/-!
# The dumps of the debugger

What `dump_memory` and `dump_stack` print. Their arguments are any 64-bit values, so they are
clamped before anything is added to them, and the last row of a dump may be a short one.

Results:
1. `dumpRange_eq`: the rows of a dump of memory.
2. `dumpQwords_eq`: the rows of a dump of the stack.
3. `dumps_exact`: both show exactly what they should, read nothing out of bounds, and no
   address or count wraps.
-/

namespace Waivm

open CString
open LittleEndian (Byte)

/-- The rows of bytes that were printed, with their addresses. -/
def memRows (lines : List DebuggerLine) : List (BitVec 64 × List Byte) :=
  lines.filterMap fun
    | .memRow address row => some (address, row)
    | _ => none

/-- The values of the stack that were printed, with their addresses. -/
def stackRows (lines : List DebuggerLine) : List (BitVec 64 × WaiValue) :=
  lines.filterMap fun
    | .stackRow address value => some (address, value)
    | _ => none

/-- The lines show the `n` bytes from `address` on, each once and in order, in rows of at most
16 bytes that begin at the addresses they are labelled with. -/
structure ShowsBytes (vm : WaiVm) (address n : Nat) (lines : List DebuggerLine) : Prop where
  in_bounds : n = 0 ∨ address + n ≤ waiMemorySize
  bytes : (memRows lines).flatMap Prod.snd =
    (List.range n).map fun i => byteD vm.memory (address + i)
  short : ∀ row ∈ memRows lines, row.2 ≠ [] ∧ row.2.length ≤ 16
  labels : (memRows lines).map (·.1.toNat) =
    (List.range (memRows lines).length).map fun k => address + 16 * k
  placed : ∀ row ∈ memRows lines,
    row.2 = (List.range row.2.length).map fun j => byteD vm.memory (row.1.toNat + j)

/-- The lines show the `n` values from `sp` on, and no error. -/
structure ShowsQwords (vm : WaiVm) (n : Nat) (lines : List DebuggerLine) : Prop where
  in_bounds : n = 0 ∨ vm.sp.toNat + 8 * n ≤ waiMemorySize
  values : (stackRows lines).map (fun row => (row.1.toNat, row.2)) =
    (List.range n).map fun i => (vm.sp.toNat + 8 * i, readQword vm.memory (vm.sp.toNat + 8 * i))
  no_error : ∀ status, .stackReadError status ∉ lines

/-- The address and the count in the argument of `mem`; `none` for the usage message. -/
def memArguments (arg : Option Text) : Option (BitVec 64 × BitVec 64) :=
  match parseU64Token arg with
  | none => none
  | some (address, []) => some (address, 64)
  | some (address, next) =>
    match parseU64Token (some next) with
    | some (count, []) => some (address, count)
    | _ => none

/-- The count in the argument of `stack`; `none` for the usage message. -/
def stackArguments (arg : Option Text) : Option (BitVec 64) :=
  match arg with
  | none | some [] => some 8
  | some text =>
    match parseU64Token (some text) with
    | some (count, []) => some count
    | _ => none

theorem mapM_ok {α β : Type} {f : α → Except Fault β} {g : α → β} {l : List α}
    (h : ∀ x ∈ l, f x = .ok (g x)) : l.mapM f = .ok (l.map g) := by
  induction l with
  | nil => rfl
  | cons x rest ih =>
    rw [List.forall_mem_cons] at h
    rw [List.mapM_cons, h.1, ih h.2]
    rfl

/-- A clamped count. -/
theorem toNat_clamp (limit count : BitVec 64) :
    (if limit < count then limit else count).toNat = min count.toNat limit.toNat := by
  split
  · next h => exact (Nat.min_eq_right (BitVec.lt_def.mp h).le).symm
  · next h => exact (Nat.min_eq_left (BitVec.le_def.mp (BitVec.not_lt.mp h))).symm

/-! ## 1. Memory -/

section Memory
variable (vm : WaiVm)

theorem memoryAt_ok {i : BitVec 64} (h : i.toNat < waiMemorySize) :
    vm.memoryAt i = .ok (byteD vm.memory i.toNat) := by
  rw [WaiVm.memoryAt, dif_pos h, byteD, dif_pos h]

/-- The bytes of a row of a dump of `n` bytes. -/
def rowBytes (address n k : Nat) : List Byte :=
  (List.range (min 16 (n - 16 * k))).map fun j => byteD vm.memory (address + 16 * k + j)

/-- A row of a dump whose range lies in the memory. -/
theorem memoryRow_ok {address count : BitVec 64} {k : Nat} (hk : 16 * k < count.toNat)
    (hrange : address.toNat + count.toNat ≤ waiMemorySize) :
    memoryRow vm address (BitVec.ofNat 64 (16 * k)) count =
      .ok (.memRow (address + BitVec.ofNat 64 (16 * k)) (rowBytes vm address.toNat count.toNat k)) := by
  have hsize : waiMemorySize = 65536 := rfl
  have hi : (BitVec.ofNat 64 (16 * k)).toNat = 16 * k := by
    rw [BitVec.toNat_ofNat]
    exact Nat.mod_eq_of_lt (by omega)
  have hsub : (count - BitVec.ofNat 64 (16 * k)).toNat = count.toNat - 16 * k := by
    rw [BitVec.toNat_sub_of_le (BitVec.le_def.mpr (hi.symm ▸ hk.le)), hi]
  have hbyte : ∀ j ∈ List.range (min 16 (count.toNat - 16 * k)),
      vm.memoryAt (address + BitVec.ofNat 64 (16 * k) + BitVec.ofNat 64 j) =
        .ok (byteD vm.memory (address.toNat + 16 * k + j)) := by
    intro j hj
    rw [List.mem_range, lt_min_iff] at hj
    have hrow : (address + BitVec.ofNat 64 (16 * k)).toNat = address.toNat + 16 * k :=
      toNat_add_ofNat (by omega)
    have hlt : address.toNat + 16 * k + j < waiMemorySize := by omega
    have hindex : (address + BitVec.ofNat 64 (16 * k) + BitVec.ofNat 64 j).toNat =
        address.toNat + 16 * k + j := by
      rw [toNat_add_ofNat (hrow.symm ▸ hlt.le), hrow]
    rw [memoryAt_ok vm (hindex.symm ▸ hlt), hindex]
  have hcount := toNat_clamp 16 (count - BitVec.ofNat 64 (16 * k))
  rw [hsub, min_comm] at hcount
  simp only [memoryRow, hcount, show (16 : BitVec 64).toNat = 16 from rfl, mapM_ok hbyte]
  rfl

/-- The rows of a dump of memory: the count is cut at the end of the memory. -/
theorem dumpRange_eq {address count : BitVec 64} (haddress : address.toNat < waiMemorySize)
    (hcount : count.toNat ≤ 256) :
    let n := min count.toNat (waiMemorySize - address.toNat)
    dumpRange vm address count = .ok ((List.range ((n + 15) / 16)).map fun k =>
      .memRow (address + BitVec.ofNat 64 (16 * k)) (rowBytes vm address.toNat n k)) := by
  intro n
  have hsize : waiMemorySize = 65536 := rfl
  rw [dumpRange, if_neg (Nat.not_le.mpr haddress)]
  simp only
  set size := if waiMemorySize < (address + count).toNat then
    BitVec.ofNat 64 waiMemorySize - address else count with hset
  have hn : size.toNat = n := by
    have hsum : (address + count).toNat = address.toNat + count.toNat := by
      rw [BitVec.toNat_add]
      exact Nat.mod_eq_of_lt (by omega)
    rw [hset, hsum]
    split
    · rw [BitVec.toNat_sub, BitVec.toNat_ofNat]
      omega
    · omega
  rw [← hn]
  refine mapM_ok fun k hk => ?_
  rw [List.mem_range] at hk
  exact memoryRow_ok vm (by omega) (by omega)

/-- Rows of 16 values, with a shorter one at the end, hold the values in their order. -/
theorem flatMap_rows {α : Type} (f : Nat → α) (n m : Nat) :
    ((List.range m).flatMap fun k => (List.range (min 16 (n - 16 * k))).map fun j => f (16 * k + j)) =
      (List.range (min n (16 * m))).map f := by
  induction m with
  | zero => rw [Nat.mul_zero, Nat.min_zero]; rfl
  | succ m ih =>
    rw [List.range_succ, List.flatMap_append, ih, List.flatMap_singleton]
    rcases Nat.lt_or_ge (16 * m) n with hlt | hle
    · have hfull : min n (16 * m) = 16 * m := Nat.min_eq_right hlt.le
      have hnext : min n (16 * (m + 1)) = 16 * m + min 16 (n - 16 * m) := by omega
      rw [hfull, hnext, List.range_add, List.map_append, List.map_map]
      rfl
    · have hdone : min n (16 * (m + 1)) = min n (16 * m) := by omega
      rw [hdone, Nat.sub_eq_zero_of_le hle]
      exact List.append_nil _

/-- The rows of a dump show the bytes of its range. -/
theorem showsBytes_rows {address : BitVec 64} {n : Nat}
    (hrange : n = 0 ∨ address.toNat + n ≤ waiMemorySize) :
    ShowsBytes vm address.toNat n ((List.range ((n + 15) / 16)).map fun k =>
      .memRow (address + BitVec.ofNat 64 (16 * k)) (rowBytes vm address.toNat n k)) := by
  have hsize : waiMemorySize = 65536 := rfl
  have hrows : memRows ((List.range ((n + 15) / 16)).map fun k =>
      .memRow (address + BitVec.ofNat 64 (16 * k)) (rowBytes vm address.toNat n k)) =
      (List.range ((n + 15) / 16)).map fun k =>
        (address + BitVec.ofNat 64 (16 * k), rowBytes vm address.toNat n k) := by
    rw [memRows, List.filterMap_map, ← List.filterMap_eq_map]
    rfl
  -- no label wraps
  have hlabel : ∀ k ∈ List.range ((n + 15) / 16),
      (address + BitVec.ofNat 64 (16 * k)).toNat = address.toNat + 16 * k := by
    intro k hk
    rw [List.mem_range] at hk
    exact toNat_add_ofNat (by omega)
  refine ⟨hrange, ?_, ?_, ?_, ?_⟩
  · rw [hrows, List.flatMap_map]
    have hflat := flatMap_rows (fun i => byteD vm.memory (address.toNat + i)) n ((n + 15) / 16)
    rw [show min n (16 * ((n + 15) / 16)) = n by omega] at hflat
    rw [← hflat]
    simp only [rowBytes, Nat.add_assoc]
  · rw [hrows, List.forall_mem_map]
    intro k hk
    rw [List.mem_range] at hk
    have hlength : (rowBytes vm address.toNat n k).length = min 16 (n - 16 * k) := by
      rw [rowBytes, List.length_map, List.length_range]
    refine ⟨List.ne_nil_of_length_pos ?_, ?_⟩
    · rw [hlength]
      omega
    · rw [hlength]
      exact Nat.min_le_left _ _
  · rw [hrows, List.map_map, List.length_map, List.length_range]
    exact List.map_congr_left hlabel
  · rw [hrows, List.forall_mem_map]
    intro k hk
    simp only [hlabel k hk]
    rw [rowBytes, List.length_map, List.length_range]

end Memory

/-! ## 2. The stack -/

section Stack
variable (vm : WaiVm)

/-- The loop of `dump_stack` shows values up to the end of the memory. -/
theorem dumpStackFrom_eq (n : Nat) (address : BitVec 64) :
    dumpStackFrom vm n address =
      .ok ((List.range (min n ((waiMemorySize - address.toNat) / 8))).map fun i =>
        .stackRow (address + BitVec.ofNat 64 (8 * i)) (readQword vm.memory (address.toNat + 8 * i))) := by
  have hsize : waiMemorySize = 65536 := rfl
  induction n generalizing address with
  | zero => rw [Nat.zero_min]; rfl
  | succ n ih =>
    rw [dumpStackFrom]
    by_cases hend : waiMemorySize - sizeofWaiValue < address.toNat
    · have hzero : (waiMemorySize - address.toNat) / 8 = 0 :=
        Nat.div_eq_of_lt (by rw [sizeofWaiValue] at hend; omega)
      rw [if_pos hend, hzero, Nat.min_zero]
      rfl
    · have hle : address.toNat ≤ maxAddress := Nat.not_lt.mp hend
      have hmax : maxAddress = 65528 := rfl
      have hnext : (address + BitVec.ofNat 64 sizeofWaiValue).toNat = address.toNat + 8 :=
        toNat_add_ofNat (by rw [sizeofWaiValue]; omega)
      have hcount : min (n + 1) ((waiMemorySize - address.toNat) / 8) =
          min n ((waiMemorySize - (address.toNat + 8)) / 8) + 1 := by omega
      have haddress : ∀ i, address + BitVec.ofNat 64 sizeofWaiValue + BitVec.ofNat 64 (8 * i) =
          address + BitVec.ofNat 64 (8 * (i + 1)) := by
        intro i
        rw [BitVec.add_assoc, ← BitVec.ofNat_add, sizeofWaiValue, Nat.mul_succ, Nat.add_comm 8]
      rw [if_neg hend, load_spec vm hle, hcount, List.range_succ_eq_map, List.map_cons, List.map_map]
      simp only [bind, Except.bind, ih, hnext]
      refine congrArg Except.ok (List.cons_eq_cons.mpr ⟨?_, List.map_congr_left fun i _ => ?_⟩)
      · rw [Nat.mul_zero, BitVec.add_zero, Nat.add_zero]
      · rw [haddress, Nat.add_assoc, Nat.add_comm 8]
        rfl

/-- The lines of a dump of the stack. -/
theorem dumpQwords_eq (count : BitVec 64) :
    dumpQwords vm count =
      if waiMemorySize - sizeofWaiValue < vm.sp.toNat then .ok [.stackEmpty]
      else .ok ((List.range (min (min count.toNat 32) ((waiMemorySize - vm.sp.toNat) / 8))).map fun i =>
        .stackRow (vm.sp + BitVec.ofNat 64 (8 * i)) (readQword vm.memory (vm.sp.toNat + 8 * i))) := by
  rw [dumpQwords, dumpStackFrom_eq, toNat_clamp]
  rfl

/-- The lines of a dump of the stack show the values of its range. -/
theorem showsQwords_lines (count : BitVec 64) :
    ∃ lines, dumpQwords vm count = .ok lines ∧
      ShowsQwords vm (min (min count.toNat 32) ((waiMemorySize - vm.sp.toNat) / 8)) lines := by
  have hsize : waiMemorySize = 65536 := rfl
  rw [dumpQwords_eq]
  by_cases hend : waiMemorySize - sizeofWaiValue < vm.sp.toNat
  · have hzero : (waiMemorySize - vm.sp.toNat) / 8 = 0 :=
      Nat.div_eq_of_lt (by rw [sizeofWaiValue] at hend; omega)
    rw [if_pos hend, hzero, Nat.min_zero]
    refine ⟨_, rfl, .inl rfl, rfl, fun status hmem => ?_⟩
    cases List.mem_singleton.mp hmem
  · rw [if_neg hend]
    set n := min (min count.toNat 32) ((waiMemorySize - vm.sp.toNat) / 8) with hn
    rw [sizeofWaiValue] at hend
    refine ⟨_, rfl, .inr (by omega), ?_, fun status hmem => ?_⟩
    · have hrows : stackRows ((List.range n).map fun i =>
          .stackRow (vm.sp + BitVec.ofNat 64 (8 * i)) (readQword vm.memory (vm.sp.toNat + 8 * i))) =
          (List.range n).map fun i =>
            (vm.sp + BitVec.ofNat 64 (8 * i), readQword vm.memory (vm.sp.toNat + 8 * i)) := by
        rw [stackRows, List.filterMap_map, ← List.filterMap_eq_map]
        rfl
      rw [hrows, List.map_map]
      refine List.map_congr_left fun i hi => Prod.ext ?_ rfl
      rw [List.mem_range] at hi
      exact toNat_add_ofNat (by omega)
    · obtain ⟨i, _, heq⟩ := List.mem_map.mp hmem
      cases heq

end Stack

/-! ## 3. The commands -/

section Commands
variable (vm : WaiVm)

theorem dumpMemory_eq (arg : Option Text) :
    dumpMemory vm arg = match memArguments arg with
      | none => .ok [.memUsage]
      | some (address, count) => dumpRange vm address (if 256 < count then 256 else count) := by
  unfold dumpMemory memArguments
  rcases parseU64Token arg with _ | ⟨address, _ | ⟨c, next⟩⟩
  · rfl
  · rfl
  · simp only
    rcases parseU64Token (some (c :: next)) with _ | ⟨count, _ | _⟩ <;> rfl

theorem dumpStack_eq (arg : Option Text) :
    dumpStack vm arg = match stackArguments arg with
      | none => .ok [.stackUsage]
      | some count => dumpQwords vm count := by
  unfold dumpStack stackArguments
  rcases arg with _ | _ | ⟨c, text⟩
  · rfl
  · rfl
  · simp only
    rcases parseU64Token (some (c :: text)) with _ | ⟨count, _ | _⟩ <;> rfl

/-- A dump of memory shows the bytes that it should. -/
theorem dumpMemory_shows {arg : Option Text} {address count : BitVec 64}
    (h : memArguments arg = some (address, count)) :
    ∃ lines, dumpMemory vm arg = .ok lines ∧
      ShowsBytes vm address.toNat (min (min count.toNat 256) (waiMemorySize - address.toNat)) lines := by
  have hclamp : (if 256 < count then 256 else count).toNat = min count.toNat 256 := toNat_clamp 256 count
  rw [dumpMemory_eq, h]
  simp only
  rcases Nat.lt_or_ge address.toNat waiMemorySize with hlt | hge
  · rw [dumpRange_eq vm hlt (hclamp ▸ Nat.min_le_right _ _), hclamp]
    exact ⟨_, rfl, showsBytes_rows vm (.inr (by omega))⟩
  · rw [dumpRange, if_pos hge, Nat.sub_eq_zero_of_le hge, Nat.min_zero]
    exact ⟨_, rfl, .inl rfl, rfl, nofun, rfl, nofun⟩

end Commands

/-- In every state the dumps show exactly the bytes and the values that they should, whatever the
arguments are. -/
theorem dumps_exact (vm : WaiVm) :
    (∀ arg address count, memArguments arg = some (address, count) →
      ∃ lines, dumpMemory vm arg = .ok lines ∧
        ShowsBytes vm address.toNat (min (min count.toNat 256) (waiMemorySize - address.toNat)) lines) ∧
    ∀ arg count, stackArguments arg = some count →
      ∃ lines, dumpStack vm arg = .ok lines ∧
        ShowsQwords vm (min (min count.toNat 32) ((waiMemorySize - vm.sp.toNat) / 8)) lines := by
  constructor
  · intro arg address count h
    exact dumpMemory_shows vm h
  · intro arg count h
    rw [dumpStack_eq, h]
    exact showsQwords_lines vm count

/-- `mem 65530 20` shows the last 6 bytes of the memory, and `stack` nothing of an empty stack. -/
theorem dumps_exact_end :
    ∃ arg lines lines', memArguments (some arg) = some (65530, 20) ∧
      dumpMemory waiProgramInit.initialVm (some arg) = .ok lines ∧
      ShowsBytes waiProgramInit.initialVm 65530 6 lines ∧
      dumpStack waiProgramInit.initialVm none = .ok lines' ∧
      ShowsQwords waiProgramInit.initialVm 0 lines' := by
  have harg : memArguments (some ['6', '5', '5', '3', '0', ' ', '2', '0']) = some (65530, 20) := by
    decide
  obtain ⟨lines, hlines, hshows⟩ := (dumps_exact waiProgramInit.initialVm).1 _ _ _ harg
  obtain ⟨lines', hlines', hshows'⟩ := (dumps_exact waiProgramInit.initialVm).2 none 8 rfl
  exact ⟨_, lines, lines', harg, hlines, hshows, hlines', hshows'⟩

end Waivm
