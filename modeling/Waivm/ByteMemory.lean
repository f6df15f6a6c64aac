import Waivm.Invariant

/-!
# Loads and stores as a byte memory

`wai_vm_memory_load_i64` and `wai_vm_memory_store_i64` take a value apart into eight bytes
and put it together again. `ByteMemory` says what this comes to for callers: addresses
that are refused, round trips, frames, and overlapping accesses.

Results:

1. `readQword_writeQword_overlap`: what a load finds of a store that it overlaps with.
2. `writeQword_comm`: stores of separate bytes commute.
3. `byte_memory`: the laws of the two calls from every state, and the addresses that the
   `LOAD` and `STORE` instructions accept.
-/

namespace Waivm

open LittleEndian (Byte byteAt join)

/-! ## Bytes of a stored value -/

section Bytes
variable (memory : VmMemory) {p q : Nat} (value : WaiValue)

/-- The byte at `i` after a store of `value` at `p`. -/
def byteAfter (p i : Nat) : Byte :=
  if p ≤ i ∧ i < p + 8 then byteAt value (i - p) else byteD memory i

/-- A load after a store puts together the new bytes where the two overlap and the old
ones elsewhere. -/
theorem readQword_writeQword_overlap (hp : p ≤ maxAddress) :
    readQword (writeQword memory p value) q =
      join 64 8 fun i => byteAfter memory value p (q + i) := by
  have hle : p + 8 ≤ waiMemorySize := Nat.add_le_of_le_sub (by decide) hp
  refine LittleEndian.join_congr fun i _ => ?_
  rw [writeQword, byteD_writeBytes _ _ _ hle, byteAfter]

/-- A store changes no byte outside its own eight. -/
theorem writeQword_frame {i : Fin waiMemorySize} (h : i.val < p ∨ p + 8 ≤ i.val) :
    writeQword memory p value i = memory i := by
  refine if_neg fun hin => ?_
  rcases h with hlt | hge
  · exact Nat.not_le_of_lt hlt hin.1
  · exact Nat.not_lt_of_le hge hin.2

/-- Stores of separate bytes commute. -/
theorem writeQword_comm (value' : WaiValue) (h : p + 8 ≤ q ∨ q + 8 ≤ p) :
    writeQword (writeQword memory p value) q value' =
      writeQword (writeQword memory q value') p value := by
  funext i
  by_cases hq : q ≤ i.val ∧ i.val < q + 8
  · -- a byte of the one store is not a byte of the other
    have hp : ¬ (p ≤ i.val ∧ i.val < p + 8) := by omega
    simp only [writeQword, writeBytes, if_pos hq, if_neg hp]
  · simp only [writeQword, writeBytes, if_neg hq]

end Bytes

/-! ## The two calls -/

/-- Two accesses have no byte in common. -/
def Apart (p q : BitVec 64) : Prop :=
  p.toNat + 8 ≤ q.toNat ∨ q.toNat + 8 ≤ p.toNat

/-- `Stored vm p value vm'`: a store of `value` at `p` succeeds and leaves `vm'`. -/
def Stored (vm : WaiVm) (p : BitVec 64) (value : WaiValue) (vm' : WaiVm) : Prop :=
  waiVmMemoryStoreI64 vm p value = .ok (.ok, vm')

/-- The laws of loads and stores from the state `vm` on. A load takes the state as `const`,
so it changes nothing. -/
structure ByteMemory (vm : WaiVm) : Prop where
  load_iff : ∀ p, (∃ value, waiVmMemoryLoadI64 vm p = .ok (.ok value)) ↔ p.toNat ≤ 65528
  load_refused : ∀ p, 65528 < p.toNat → waiVmMemoryLoadI64 vm p = .ok (.error .errMemoryOob)
  store_iff : ∀ p value, (∃ vm', Stored vm p value vm') ↔ p.toNat ≤ 65528
  store_refused : ∀ p value, 65528 < p.toNat →
    waiVmMemoryStoreI64 vm p value = .ok (.errMemoryOob, vm)
  load_stored : ∀ p value vm', Stored vm p value vm' →
    waiVmMemoryLoadI64 vm' p = .ok (.ok value)
  memory_only : ∀ p value vm', Stored vm p value vm' → vm' = { vm with memory := vm'.memory }
  own_bytes_only : ∀ p value vm', Stored vm p value vm' → ∀ i : Fin waiMemorySize,
    i.val < p.toNat ∨ p.toNat + 8 ≤ i.val → vm'.memory i = vm.memory i
  load_apart : ∀ p q value vm', Stored vm p value vm' → Apart p q →
    waiVmMemoryLoadI64 vm' q = waiVmMemoryLoadI64 vm q
  store_comm : ∀ p q value value', Apart p q → ∃ status status' vm₁ vm₂ vm₃,
    waiVmMemoryStoreI64 vm p value = .ok (status, vm₁) ∧
    waiVmMemoryStoreI64 vm₁ q value' = .ok (status', vm₃) ∧
    waiVmMemoryStoreI64 vm q value' = .ok (status', vm₂) ∧
    waiVmMemoryStoreI64 vm₂ p value = .ok (status, vm₃)
  load_overlap : ∀ p q value vm', Stored vm p value vm' → q.toNat ≤ 65528 →
    waiVmMemoryLoadI64 vm' q =
      .ok (.ok (join 64 8 fun i => byteAfter vm.memory value p.toNat (q.toNat + i)))

/-- The addresses of the `LOAD` and `STORE` instructions. -/
structure AddressesChecked (vm : WaiVm) : Prop where
  check_iff : ∀ address : WaiValue, (∃ out, checkAddressI64 address = .ok out) ↔
    0 ≤ address.toInt ∧ address.toInt ≤ 65528
  check_value : ∀ (address : WaiValue) out, checkAddressI64 address = .ok out →
    (out.toNat : Int) = address.toInt
  accepted : ∀ code ins, vm.code = some code → vm.halted = 0 → vm.ip < vm.codeCount →
    code[vm.ip.toNat]? = some ins → ins.op ∈ [.loadAbs, .loadReg, .storeAbs, .storeReg] →
    validReg ins.a = true → (ins.op ∈ [.loadReg, .storeReg] → validReg ins.b = true) →
    0 ≤ (ins.address vm).toInt → (ins.address vm).toInt ≤ 65528 →
    ∃ vm', waiVmStep vm = .ok (.ok, vm')
  refused : ∀ code ins, vm.code = some code → vm.halted = 0 → vm.ip < vm.codeCount →
    code[vm.ip.toNat]? = some ins → ins.op ∈ [.loadAbs, .loadReg, .storeAbs, .storeReg] →
    validReg ins.a = true → (ins.op ∈ [.loadReg, .storeReg] → validReg ins.b = true) →
    ¬ (0 ≤ (ins.address vm).toInt ∧ (ins.address vm).toInt ≤ 65528) →
    ∃ vm', waiVmStep vm = .ok (.errMemoryOob, vm')

section Calls
variable {vm vm' : WaiVm} {p q : BitVec 64} {value : WaiValue}

/-- What is known of a store that succeeded. -/
theorem Stored.spec (h : Stored vm p value vm') :
    p.toNat ≤ maxAddress ∧ vm' = { vm with memory := writeQword vm.memory p.toNat value } := by
  rcases Nat.lt_or_ge maxAddress p.toNat with hlt | hle
  · cases (store_oob vm hlt value).symm.trans h
  · cases (store_spec vm hle value).symm.trans h
    exact ⟨hle, rfl⟩

theorem store_comm (vm : WaiVm) (value value' : WaiValue) (h : Apart p q) :
    ∃ status status' vm₁ vm₂ vm₃,
      waiVmMemoryStoreI64 vm p value = .ok (status, vm₁) ∧
      waiVmMemoryStoreI64 vm₁ q value' = .ok (status', vm₃) ∧
      waiVmMemoryStoreI64 vm q value' = .ok (status', vm₂) ∧
      waiVmMemoryStoreI64 vm₂ p value = .ok (status, vm₃) := by
  -- a store that is refused changes nothing, so only two that succeed have to commute
  rcases Nat.lt_or_ge maxAddress p.toNat with hp | hp <;>
    rcases Nat.lt_or_ge maxAddress q.toNat with hq | hq
  · exact ⟨_, _, vm, vm, vm, store_oob vm hp value, store_oob vm hq value', store_oob vm hq value',
      store_oob vm hp value⟩
  · exact ⟨_, _, vm, _, _, store_oob vm hp value, store_spec vm hq value', store_spec vm hq value',
      store_oob _ hp value⟩
  · exact ⟨_, _, _, vm, _, store_spec vm hp value, store_oob _ hq value', store_oob vm hq value',
      store_spec vm hp value⟩
  · refine ⟨_, _, _, _, _, store_spec vm hp value, store_spec _ hq value', store_spec vm hq value', ?_⟩
    rw [store_spec _ hp value]
    simp only [writeQword_comm vm.memory value value' h]

/-- The four instructions load from or store at their address. -/
theorem memory_switch {ins : WaiInstruction}
    (hop : ins.op ∈ [.loadAbs, .loadReg, .storeAbs, .storeReg]) (ha : validReg ins.a = true)
    (hb : ins.op ∈ [.loadReg, .storeReg] → validReg ins.b = true) :
    stepSwitch vm ins = loadFrom vm ins.a (ins.address vm) ∨
      stepSwitch vm ins = storeTo vm ins.a (ins.address vm) := by
  unfold stepSwitch WaiInstruction.address
  rw [show WaiOpcode.ofByte ins.opcode = ins.op from rfl]
  simp only [List.mem_cons, List.not_mem_nil, or_false] at hop hb
  rcases hop with hop | hop | hop | hop <;> rw [hop] at hb ⊢ <;>
    simp only [ha, Bool.not_true, Bool.false_eq_true, if_false]
  · exact .inl rfl
  · simp only [hb (.inl rfl), reg_spec vm (hb (.inl rfl))]
    exact .inl rfl
  · exact .inr rfl
  · simp only [hb (.inr rfl), reg_spec vm (hb (.inr rfl))]
    exact .inr rfl

/-- An instruction with an address in range succeeds, and one without reports the address. -/
theorem memory_step {code : List WaiInstruction} {ins : WaiInstruction} (hc : vm.code = some code)
    (hhalted : vm.halted = 0) (hip : vm.ip < vm.codeCount) (hget : code[vm.ip.toNat]? = some ins)
    (hop : ins.op ∈ [.loadAbs, .loadReg, .storeAbs, .storeReg]) (ha : validReg ins.a = true)
    (hb : ins.op ∈ [.loadReg, .storeReg] → validReg ins.b = true) :
    ∃ vm', waiVmStep vm =
      .ok (if ValidAddress (ins.address vm) then .ok else .errMemoryOob, vm') := by
  have hfetch := step_fetch hc (not_not.mpr hhalted) (BitVec.not_le.mpr hip) hget
  have haddress : ins.address vm.fetched = ins.address vm := rfl
  rw [hfetch]
  have hswitch : stepSwitch vm.fetched ins = loadFrom vm.fetched ins.a (ins.address vm.fetched) ∨
      stepSwitch vm.fetched ins = storeTo vm.fetched ins.a (ins.address vm.fetched) :=
    memory_switch hop ha hb
  rcases hswitch with hswitch | hswitch <;>
    rw [hswitch, haddress] <;> by_cases hvalid : ValidAddress (ins.address vm)
  · exact ⟨_, (loadFrom_of_valid ha hvalid).trans (by rw [if_pos hvalid]; rfl)⟩
  · exact ⟨_, (loadFrom_of_not_valid hvalid).trans (by rw [if_neg hvalid])⟩
  · exact ⟨_, (storeTo_of_valid ha hvalid).trans (by rw [if_pos hvalid])⟩
  · exact ⟨_, (storeTo_of_not_valid hvalid).trans (by rw [if_neg hvalid])⟩

end Calls

theorem byteMemory (vm : WaiVm) : ByteMemory vm where
  load_iff p := by
    constructor
    · rintro ⟨value, h⟩
      by_contra hlt
      cases (load_oob vm (Nat.not_le.mp hlt)).symm.trans h
    · intro h
      exact ⟨_, load_spec vm h⟩
  load_refused p h := load_oob vm h
  store_iff p value := by
    constructor
    · rintro ⟨vm', h⟩
      exact h.spec.1
    · intro h
      exact ⟨_, store_spec vm h value⟩
  store_refused p value h := store_oob vm h value
  load_stored p value vm' h := by
    obtain ⟨hp, rfl⟩ := h.spec
    rw [load_spec _ hp, readQword_writeQword _ _ hp]
  memory_only p value vm' h := by
    obtain ⟨_, rfl⟩ := h.spec
    rfl
  own_bytes_only p value vm' h i hi := by
    obtain ⟨_, rfl⟩ := h.spec
    exact writeQword_frame vm.memory value hi
  load_apart p q value vm' h hpq := by
    obtain ⟨hp, rfl⟩ := h.spec
    rcases Nat.lt_or_ge maxAddress q.toNat with hq | hq
    · rw [load_oob _ hq, load_oob _ hq]
    · rw [load_spec _ hq, load_spec _ hq, readQword_writeQword_of_disjoint _ _ hp hpq]
  store_comm p q value value' h := store_comm vm value value' h
  load_overlap p q value vm' h hq := by
    obtain ⟨hp, rfl⟩ := h.spec
    rw [load_spec _ hq, readQword_writeQword_overlap _ _ hp]

theorem addressesChecked (vm : WaiVm) : AddressesChecked vm where
  check_iff address := by
    constructor
    · rintro ⟨out, h⟩
      by_contra hnot
      cases (checkAddressI64_of_not_valid hnot).symm.trans h
    · intro h
      exact ⟨address, checkAddressI64_of_valid h⟩
  check_value address out h := by
    by_cases hvalid : ValidAddress address
    · cases (checkAddressI64_of_valid hvalid).symm.trans h
      exact (toInt_eq_toNat_of_nonneg hvalid.1).symm
    · cases (checkAddressI64_of_not_valid hvalid).symm.trans h
  accepted code ins hc hhalted hip hget hop ha hb h0 hle := by
    obtain ⟨vm', h⟩ := memory_step hc hhalted hip hget hop ha hb
    have hvalid : ValidAddress (ins.address vm) := ⟨h0, hle⟩
    rw [if_pos hvalid] at h
    exact ⟨vm', h⟩
  refused code ins hc hhalted hip hget hop ha hb hnot := by
    obtain ⟨vm', h⟩ := memory_step hc hhalted hip hget hop ha hb
    have hinvalid : ¬ ValidAddress (ins.address vm) := hnot
    rw [if_neg hinvalid] at h
    exact ⟨vm', h⟩

/-- Loads and stores are those of a byte memory, and the instructions accept exactly the
addresses from `0` to `65528`. -/
theorem byte_memory (vm : WaiVm) : ByteMemory vm ∧ AddressesChecked vm :=
  ⟨byteMemory vm, addressesChecked vm⟩

end Waivm
