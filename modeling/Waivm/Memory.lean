import Waivm.Vm

/-!
# Registers and byte memory as total functions

The C code indexes `regs` and `memory` after a bounds test. Here the same reads
and writes are total functions (`regD`, `withReg`, `readQword`, `writeQword`),
and each C function is shown to be one of them, or to report its error, on all
inputs: `load_spec`, `store_spec`, `push_spec`, `pop_spec`. No proof about the
machine unfolds the byte loops after this module.
-/

namespace Waivm

open LittleEndian (Byte byteAt join)

/-! ## Total reads and writes -/

/-- Register `r`, and `0` where there is no such register. -/
def WaiVm.regD (vm : WaiVm) (r : Byte) : WaiValue :=
  if h : r.toNat < waiRegisterCount then vm.regs ⟨r.toNat, h⟩ else 0

/-- Register `r` set to `value`; no register changes where there is no `r`. -/
def WaiVm.withReg (vm : WaiVm) (r : Byte) (value : WaiValue) : WaiVm :=
  { vm with regs := fun i => if i.val = r.toNat then value else vm.regs i }

/-- The memory of the machine. -/
abbrev VmMemory := Fin waiMemorySize → Byte

/-- The byte at `i`, and `0` past the end. -/
def byteD (memory : VmMemory) (i : Nat) : Byte :=
  if h : i < waiMemorySize then memory ⟨i, h⟩ else 0

/-- The little-endian 64-bit value at `address`. -/
def readQword (memory : VmMemory) (address : Nat) : WaiValue :=
  join 64 8 fun i => byteD memory (address + i)

/-- `n` bytes of `value`, lowest first, written from `address` on. -/
def writeBytes (memory : VmMemory) (address n : Nat) (value : WaiValue) : VmMemory :=
  fun j => if address ≤ j.val ∧ j.val < address + n then byteAt value (j.val - address) else memory j

/-- The little-endian bytes of `value` written to `address`. -/
def writeQword (memory : VmMemory) (address : Nat) (value : WaiValue) : VmMemory :=
  writeBytes memory address 8 value

/-- The highest address of a 64-bit access. -/
abbrev maxAddress : Nat := waiMemorySize - sizeofWaiValue

theorem validReg_iff (r : Byte) : validReg r = true ↔ r.toNat < 8 :=
  decide_eq_true_iff

theorem reg_spec (vm : WaiVm) {r : Byte} (h : validReg r = true) : vm.reg r = .ok (vm.regD r) := by
  have hr : r.toNat < waiRegisterCount := (validReg_iff r).mp h
  simp [WaiVm.reg, WaiVm.regD, hr]

theorem setReg_spec (vm : WaiVm) {r : Byte} (h : validReg r = true) (value : WaiValue) :
    vm.setReg r value = .ok (vm.withReg r value) := by
  have hr : r.toNat < waiRegisterCount := (validReg_iff r).mp h
  simp only [WaiVm.setReg, WaiVm.withReg, hr, ↓reduceDIte]
  congr 2
  funext i
  simp [Function.update_apply, Fin.ext_iff]

theorem regD_eq (vm : WaiVm) {r : Byte} (h : r.toNat < waiRegisterCount) :
    vm.regD r = vm.regs ⟨r.toNat, h⟩ := by
  simp [WaiVm.regD, h]

theorem regD_withReg (vm : WaiVm) {r : Byte} (h : validReg r = true) (value : WaiValue) :
    (vm.withReg r value).regD r = value := by
  rw [regD_eq _ ((validReg_iff r).mp h)]
  exact if_pos rfl

/-! ## Loading and storing 64-bit values -/

theorem byteD_writeBytes (memory : VmMemory) {address n : Nat} (value : WaiValue) (i : Nat)
    (h : address + n ≤ waiMemorySize) :
    byteD (writeBytes memory address n value) i =
      if address ≤ i ∧ i < address + n then byteAt value (i - address) else byteD memory i := by
  by_cases hi : i < waiMemorySize
  · simp [byteD, writeBytes, hi]
  · have : ¬ (address ≤ i ∧ i < address + n) := by omega
    simp [byteD, hi, this]

/-- A load where a value was just stored gives the value. -/
theorem readQword_writeQword (memory : VmMemory) {address : Nat} (value : WaiValue)
    (h : address ≤ maxAddress) : readQword (writeQword memory address value) address = value := by
  have hle : address + 8 ≤ waiMemorySize := by
    simp only [maxAddress, sizeofWaiValue, waiMemorySize] at h ⊢
    omega
  unfold readQword writeQword
  rw [← LittleEndian.join_byteAt (n := 8) value (by omega)]
  refine (LittleEndian.join_congr fun i hi => ?_).trans rfl
  rw [LittleEndian.join_byteAt value (by omega), byteD_writeBytes _ _ _ hle]
  have h1 : address ≤ address + i ∧ address + i < address + 8 := by omega
  simp [h1]

/-- A load at a distance of at least eight bytes from a store is not affected by it. -/
theorem readQword_writeQword_of_disjoint (memory : VmMemory) {p q : Nat} (value : WaiValue)
    (hp : p ≤ maxAddress) (h : p + 8 ≤ q ∨ q + 8 ≤ p) :
    readQword (writeQword memory p value) q = readQword memory q := by
  have hle : p + 8 ≤ waiMemorySize := by
    simp only [maxAddress, sizeofWaiValue, waiMemorySize] at hp ⊢
    omega
  refine LittleEndian.join_congr fun i hi => ?_
  rw [writeQword, byteD_writeBytes _ _ _ hle]
  have h1 : ¬ (p ≤ q + i ∧ q + i < p + 8) := by omega
  simp [h1]

theorem checkAddressU64_of_le {address : BitVec 64} (h : address.toNat ≤ maxAddress) :
    checkAddressU64 address = .ok := by
  simp [checkAddressU64, Nat.not_lt.mpr h]

theorem checkAddressU64_of_lt {address : BitVec 64} (h : maxAddress < address.toNat) :
    checkAddressU64 address = .errMemoryOob := by
  simp [checkAddressU64, h]

/-- An address up to the end of the memory does not wrap. -/
theorem toNat_add_ofNat {address : BitVec 64} {i : Nat} (h : address.toNat + i ≤ waiMemorySize) :
    (address + BitVec.ofNat 64 i).toNat = address.toNat + i := by
  rw [waiMemorySize] at h
  rw [BitVec.toNat_add, BitVec.toNat_ofNat]
  omega

/-- The load loop after `n` rounds. -/
theorem load_loop (vm : WaiVm) {address : BitVec 64} (h : address.toNat ≤ maxAddress)
    {n : Nat} (hn : n ≤ 8) :
    (List.range n).foldlM (m := Except Fault) (fun raw i => do
      let byte ← vm.memoryAt (address + BitVec.ofNat 64 i)
      pure (raw ||| byte.setWidth 64 <<< (i * 8))) (0 : BitVec 64) =
    .ok (join 64 n fun i => byteD vm.memory (address.toNat + i)) := by
  induction n with
  | zero => rfl
  | succ n ih =>
    have hb : vm.memoryAt (address + BitVec.ofNat 64 n) =
        .ok (byteD vm.memory (address.toNat + n)) := by
      have hlt : address.toNat + n < waiMemorySize := by
        simp only [maxAddress, sizeofWaiValue, waiMemorySize] at h ⊢
        omega
      simp [WaiVm.memoryAt, byteD, toNat_add_ofNat hlt.le, hlt]
    rw [List.range_succ, List.foldlM_append, ih (by omega), LittleEndian.join_succ]
    simp [hb, bind, Except.bind, pure, Except.pure]

theorem load_spec (vm : WaiVm) {address : BitVec 64} (h : address.toNat ≤ maxAddress) :
    waiVmMemoryLoadI64 vm address = .ok (.ok (readQword vm.memory address.toNat)) := by
  simp only [waiVmMemoryLoadI64, checkAddressU64_of_le h]
  rw [show sizeofWaiValue = 8 from rfl, load_loop vm h le_rfl]
  rfl

theorem load_oob (vm : WaiVm) {address : BitVec 64} (h : maxAddress < address.toNat) :
    waiVmMemoryLoadI64 vm address = .ok (.error .errMemoryOob) := by
  simp only [waiVmMemoryLoadI64, checkAddressU64_of_lt h]

/-- The store loop after `n` rounds. -/
theorem store_loop (vm : WaiVm) {address : BitVec 64} (h : address.toNat ≤ maxAddress)
    (value : WaiValue) {n : Nat} (hn : n ≤ 8) :
    (List.range n).foldlM (m := Except Fault) (fun (vm : WaiVm) i =>
      vm.setMemoryAt (address + BitVec.ofNat 64 i) ((value >>> (i * 8)).setWidth 8)) vm =
    .ok { vm with memory := writeBytes vm.memory address.toNat n value } := by
  induction n with
  | zero =>
    have : writeBytes vm.memory address.toNat 0 value = vm.memory := by
      funext j
      simp only [writeBytes, Nat.add_zero]
      exact if_neg (by omega)
    rw [this]
    rfl
  | succ n ih =>
    have hlt : address.toNat + n < waiMemorySize := by
      simp only [maxAddress, sizeofWaiValue, waiMemorySize] at h ⊢
      omega
    have hupd : Function.update (writeBytes vm.memory address.toNat n value)
        ⟨address.toNat + n, hlt⟩ (byteAt value n) =
        writeBytes vm.memory address.toNat (n + 1) value := by
      funext j
      simp only [Function.update_apply, Fin.ext_iff, writeBytes]
      by_cases hj : j.val = address.toNat + n
      · have h1 : address.toNat ≤ j.val ∧ j.val < address.toNat + (n + 1) := by omega
        have h2 : j.val - address.toNat = n := by omega
        simp [hj]
      · have h1 : (address.toNat ≤ j.val ∧ j.val < address.toNat + n) ↔
            (address.toNat ≤ j.val ∧ j.val < address.toNat + (n + 1)) := by omega
        simp only [hj, if_false, h1]
    rw [List.range_succ, List.foldlM_append, ih (by omega)]
    simp only [bind, Except.bind, List.foldlM_cons, List.foldlM_nil, WaiVm.setMemoryAt,
      toNat_add_ofNat hlt.le, hlt, ↓reduceDIte, pure, Except.pure]
    rw [← hupd]
    rfl

theorem store_spec (vm : WaiVm) {address : BitVec 64} (h : address.toNat ≤ maxAddress)
    (value : WaiValue) : waiVmMemoryStoreI64 vm address value =
      .ok (.ok, { vm with memory := writeQword vm.memory address.toNat value }) := by
  simp only [waiVmMemoryStoreI64, checkAddressU64_of_le h]
  rw [show sizeofWaiValue = 8 from rfl, store_loop vm h value le_rfl]
  rfl

theorem store_oob (vm : WaiVm) {address : BitVec 64} (h : maxAddress < address.toNat)
    (value : WaiValue) : waiVmMemoryStoreI64 vm address value = .ok (.errMemoryOob, vm) := by
  simp only [waiVmMemoryStoreI64, checkAddressU64_of_lt h]

/-! ## Register addresses and the stack -/

/-- A signed address is accepted exactly when it is between `0` and `65528`. -/
def ValidAddress (address : WaiValue) : Prop :=
  0 ≤ address.toInt ∧ address.toInt ≤ maxAddress

instance (address : WaiValue) : Decidable (ValidAddress address) :=
  inferInstanceAs (Decidable (_ ∧ _))

theorem validAddress_iff (address : WaiValue) :
    ValidAddress address ↔ address.toNat ≤ maxAddress := by
  have h := address.isLt
  unfold ValidAddress
  rw [BitVec.toInt_eq_toNat_cond]
  simp only [maxAddress, sizeofWaiValue, waiMemorySize]
  split <;> omega

theorem checkAddressI64_of_valid {address : WaiValue} (h : ValidAddress address) :
    checkAddressI64 address = .ok address := by
  have hneg : ¬ address.toInt < 0 := by have := h.1; omega
  simp only [checkAddressI64, hneg, if_false, checkAddressU64_of_le ((validAddress_iff _).mp h)]

theorem checkAddressI64_of_not_valid {address : WaiValue} (h : ¬ ValidAddress address) :
    checkAddressI64 address = .error .errMemoryOob := by
  unfold checkAddressI64
  split
  · rfl
  · rw [validAddress_iff] at h
    rw [checkAddressU64_of_lt (by omega)]

/-- The state after a value was pushed. -/
def WaiVm.pushed (vm : WaiVm) (value : WaiValue) : WaiVm :=
  { vm with
    sp := vm.sp - 8
    memory := writeQword vm.memory (vm.sp - 8).toNat value }

/-- The value on top of the stack. -/
def WaiVm.top (vm : WaiVm) : WaiValue :=
  readQword vm.memory vm.sp.toNat

/-- The state after the top of the stack was popped. -/
def WaiVm.popped (vm : WaiVm) : WaiVm :=
  { vm with sp := vm.sp + 8 }

theorem push_overflow (vm : WaiVm) (value : WaiValue) (h : vm.sp.toNat < 8) :
    pushI64 vm value = .ok (setError vm .errStackOverflow) := by
  simp [pushI64, sizeofWaiValue, h]

theorem sub_sp_le {sp : BitVec 64} (hsp : sp.toNat ≤ waiMemorySize) (h : 8 ≤ sp.toNat) :
    (sp - 8).toNat ≤ maxAddress := by
  have h8 : (8 : BitVec 64).toNat = 8 := rfl
  simp only [maxAddress, sizeofWaiValue, waiMemorySize, BitVec.toNat_sub, h8] at hsp ⊢
  omega

/-- With `sp` inside the memory a push never takes the branch for a failed store. -/
theorem push_spec (vm : WaiVm) (value : WaiValue) (h : 8 ≤ vm.sp.toNat)
    (hsp : vm.sp.toNat ≤ waiMemorySize) : pushI64 vm value = .ok (.ok, vm.pushed value) := by
  have hlt : ¬ vm.sp.toNat < sizeofWaiValue := by simpa [sizeofWaiValue] using h
  have hstore := store_spec { vm with sp := vm.sp - 8 } (sub_sp_le hsp h) value
  simp only [pushI64, hlt, if_false]
  simp only [show BitVec.ofNat 64 sizeofWaiValue = 8 from rfl, hstore]
  rfl

theorem pop_underflow (vm : WaiVm) (h : maxAddress < vm.sp.toNat) :
    popI64 vm = .ok (.error .errStackUnderflow, (setError vm .errStackUnderflow).2) := by
  simp only [popI64, h, if_true]

theorem pop_spec (vm : WaiVm) (h : vm.sp.toNat ≤ maxAddress) :
    popI64 vm = .ok (.ok vm.top, vm.popped) := by
  simp only [popI64, Nat.not_lt.mpr h, if_false, load_spec vm h]
  rfl

end Waivm
