import Waivm.CliMain
import Waivm.Linking
import Waivm.Lib.LeadsTo

/-!
# Rules for programs

A rule for each kind of instruction that the example programs consist of: what must hold before it, so
that something holds behind it. The rules speak of the instruction set; `prints_of_leadsTo` takes what
they show of a program to a call of `waivm run`.

Results:
1. `leadsTo_binary`, `leadsTo_compare`, `leadsTo_print`, `leadsTo_taken`, `leadsTo_untaken`; and
   `holds_binary` and the like, for assertions that list what is in the registers.
2. `prints_of_leadsTo`: a source whose program comes to a `halt` is run, and prints what the program has
   printed.
-/

namespace Waivm

open CString Isa
open LittleEndian (Byte)
open LabelledCode (numberStep At leadsTo_forward leadsTo_jump stops_at)
open Machine (LeadsTo Ends)

/-! ## 1. Instructions -/

section Rules
variable {M : Type} {mm : MemoryModel M} {code : List (Operation × Option Nat)} {n m : Nat}
  {P Q : Data M → Prop} {a : Byte} {target : Option Nat}

theorem leadsTo_binary {op : BinaryOp} {source : Source}
    (hget : code[n]? = some (.binary op a source, none))
    (h : ∀ d, P d → ∃ x y value, d.reg a = .ok x ∧ d.source source = .ok y ∧
      op x y = .ok (.ok value) ∧ Q (d.assign a value)) :
    LeadsTo (numberStep (language mm) code) (At n P) (At (n + 1) Q) := by
  refine leadsTo_forward hget fun d hd => ?_
  obtain ⟨x, y, value, hx, hy, hvalue, hq⟩ := h d hd
  refine ⟨_, ?_, hq⟩
  show moveOf d (Operation.run mm (n + 1) _ d (.binary op a source)) = _
  rw [Operation.run, hx]
  show moveOf d (d.source source >>= _) = _
  rw [hy]
  show moveOf d (completed (op x y) >>= _) = _
  rw [hvalue]
  rfl

theorem leadsTo_compare {source : Source} (hget : code[n]? = some (.compare a source, none))
    (h : ∀ d, P d → ∃ x y, d.reg a = .ok x ∧ d.source source = .ok y ∧
      Q { d with zf := decide (x = y) }) :
    LeadsTo (numberStep (language mm) code) (At n P) (At (n + 1) Q) := by
  refine leadsTo_forward hget fun d hd => ?_
  obtain ⟨x, y, hx, hy, hq⟩ := h d hd
  refine ⟨_, ?_, hq⟩
  show moveOf d (Operation.run mm (n + 1) _ d (.compare a source)) = _
  rw [Operation.run, hx]
  show moveOf d (d.source source >>= _) = _
  rw [hy]
  rfl

theorem leadsTo_print (hget : code[n]? = some (.print a, none))
    (h : ∀ d, P d → ∃ value, d.reg a = .ok value ∧ Q { d with printed := d.printed ++ [value] }) :
    LeadsTo (numberStep (language mm) code) (At n P) (At (n + 1) Q) := by
  refine leadsTo_forward hget fun d hd => ?_
  obtain ⟨value, hvalue, hq⟩ := h d hd
  refine ⟨_, ?_, hq⟩
  show moveOf d (Operation.run mm (n + 1) _ d (.print a)) = _
  rw [Operation.run, hvalue]
  rfl

theorem leadsTo_taken {condition : Condition} (hget : code[n]? = some (.jump condition, some m))
    (hm : m < code.length) (h : ∀ d, P d → d.holds condition = .ok true ∧ Q d) :
    LeadsTo (numberStep (language mm) code) (At n P) (At m Q) := by
  refine leadsTo_jump hget hm fun d hd => ?_
  obtain ⟨htaken, hq⟩ := h d hd
  refine ⟨d, ?_, hq⟩
  show moveOf d (Operation.run mm (n + 1) (decide (m < code.length)) d (.jump condition)) = _
  rw [Operation.run, htaken, decide_eq_true hm]
  rfl

theorem leadsTo_untaken {condition : Condition} (hget : code[n]? = some (.jump condition, target))
    (h : ∀ d, P d → d.holds condition = .ok false ∧ Q d) :
    LeadsTo (numberStep (language mm) code) (At n P) (At (n + 1) Q) := by
  refine leadsTo_forward hget fun d hd => ?_
  obtain ⟨huntaken, hq⟩ := h d hd
  refine ⟨d, ?_, hq⟩
  show moveOf d (Operation.run mm (n + 1) _ d (.jump condition)) = _
  rw [Operation.run, huntaken]
  rfl

/-- Where the run comes to a `halt`, it ends there. -/
theorem halts_at (hget : code[n]? = some (.halt, none)) {s : Data M × Nat} :
    LeadsTo (numberStep (language mm) code) (· = s) (At n P) →
      ∃ d, Ends (numberStep (language mm) code) s (.halted d) ∧ P d := by
  intro h
  obtain ⟨_, hends, d, rfl, hd⟩ := h.ends (stops_at hget (E := fun r => ∃ d, r = .halted d ∧ P d)
    fun d hd => ⟨_, rfl, d, rfl, hd⟩) rfl
  exact ⟨d, hends, hd⟩

/-! ### Values of registers -/

/-- The registers that are listed have the values that stand there first, and `printed` was printed. -/
structure InRegs (known : List (Byte × WaiValue)) (printed : List WaiValue) (d : Data M) : Prop where
  regs : ∀ r value, known.lookup r = some value → d.reg r = .ok value
  printed_eq : d.printed = printed

/-- The value of an operand, when it is known. -/
def sourceValue (known : List (Byte × WaiValue)) : Source → Option WaiValue
  | .reg r => known.lookup r
  | .imm value => some value

variable {known known' : List (Byte × WaiValue)} {printed : List WaiValue} {d : Data M}
  {source : Source} {x y z value : WaiValue}

theorem reg_assign (ha : validReg a = true) (value : WaiValue) :
    (d.assign a value).reg a = .ok value := by
  have hlt : a.toNat < waiRegisterCount := (validReg_iff a).mp ha
  rw [Data.reg, dif_pos hlt]
  exact congrArg Except.ok (if_pos rfl)

theorem reg_assign_of_ne {r : Byte} (h : r ≠ a) (value : WaiValue) :
    (d.assign a value).reg r = d.reg r := by
  unfold Data.reg
  split
  · refine congrArg Except.ok (if_neg fun heq => h ?_)
    exact BitVec.eq_of_toNat_eq heq
  · rfl

theorem valid_of_reg (h : d.reg a = .ok x) : validReg a = true := by
  cases ha : validReg a with
  | true => rfl
  | false =>
    rw [Data.reg, dif_neg (of_decide_eq_false ha)] at h
    cases h

theorem InRegs.source_eq (h : InRegs known printed d) (hy : sourceValue known source = some y) :
    d.source source = .ok y := by
  cases source with
  | reg r => exact h.regs r y hy
  | imm value =>
    cases hy
    rfl

theorem InRegs.assign (h : InRegs known printed d) (ha : validReg a = true) (value : WaiValue) :
    InRegs ((a, value) :: known) printed (d.assign a value) where
  regs := by
    intro r value' hr
    rw [List.lookup_cons] at hr
    split at hr
    · next heq =>
      cases hr
      rw [beq_iff_eq.mp heq]
      exact reg_assign ha _
    · next hne => exact (reg_assign_of_ne (beq_eq_false_iff_ne.mp hne) _).trans (h.regs r value' hr)
  printed_eq := h.printed_eq

/-- Some of what is known. -/
def Knows (known : List (Byte × WaiValue)) : List (Byte × WaiValue) → Prop
  | [] => True
  | (r, value) :: rest => known.lookup r = some value ∧ Knows known rest

theorem Knows.lookup {r : Byte} (h : Knows known known') (hr : known'.lookup r = some value) :
    known.lookup r = some value := by
  induction known' with
  | nil => cases hr
  | cons entry rest ih =>
    rw [List.lookup_cons] at hr
    split at hr
    · next heq =>
      cases hr
      rw [beq_iff_eq.mp heq]
      exact h.1
    · exact ih h.2 hr

theorem InRegs.weaken (h : InRegs known printed d) (hknown : Knows known known') :
    InRegs known' printed d :=
  ⟨fun r value hr => h.regs r value (hknown.lookup hr), h.printed_eq⟩

theorem holds_binary {op : BinaryOp} (hget : code[n]? = some (.binary op a source, none))
    (hx : known.lookup a = some x) (hy : sourceValue known source = some y)
    (hop : op x y = .ok (.ok z)) (hz : z = value) :
    LeadsTo (numberStep (language mm) code) (At n (InRegs known printed))
      (At (n + 1) (InRegs ((a, value) :: known) printed)) := by
  subst hz
  exact leadsTo_binary hget fun _ hd => ⟨x, y, z, hd.regs a x hx, hd.source_eq hy, hop,
    hd.assign (valid_of_reg (hd.regs a x hx)) z⟩

theorem holds_mov (hget : code[n]? = some (.binary movOp a source, none)) (ha : validReg a = true)
    (hy : sourceValue known source = some y) :
    LeadsTo (numberStep (language mm) code) (At n (InRegs known printed))
      (At (n + 1) (InRegs ((a, y) :: known) printed)) := by
  refine leadsTo_binary hget fun d hd => ?_
  have hlt : a.toNat < waiRegisterCount := (validReg_iff a).mp ha
  exact ⟨_, y, y, dif_pos hlt, hd.source_eq hy, rfl, hd.assign ha y⟩

theorem holds_compare (hget : code[n]? = some (.compare a source, none))
    (hx : known.lookup a = some x) (hy : sourceValue known source = some y) :
    LeadsTo (numberStep (language mm) code) (At n (InRegs known printed))
      (At (n + 1) fun d => InRegs known printed d ∧ d.zf = decide (x = y)) :=
  leadsTo_compare hget fun _ hd => ⟨x, y, hd.regs a x hx, hd.source_eq hy,
    ⟨fun r value hr => hd.regs r value hr, hd.printed_eq⟩, rfl⟩

theorem holds_print (hget : code[n]? = some (.print a, none)) (hx : known.lookup a = some x) :
    LeadsTo (numberStep (language mm) code) (At n (InRegs known printed))
      (At (n + 1) (InRegs known (printed ++ [x]))) :=
  leadsTo_print hget fun _ hd => ⟨x, hd.regs a x hx, fun r value hr => hd.regs r value hr,
    congrArg (· ++ [x]) hd.printed_eq⟩

end Rules

/-! ## 2. Calls of `run` -/

/-- `waivm run path` succeeds, and prints `values`. -/
def Prints (host : Host) (path : Text) (values : List WaiValue) : Prop :=
  ∀ name e, waiCliMain host [name, ['r', 'u', 'n'], path] e ↔ e = host.succeeds (printedText values)

/-- The file is a source text. -/
def HoldsSource (host : Host) (path source : Text) : Prop :=
  ∃ content, host.files path = some content ∧ textOf content = source

section Calls
variable {host : Host} {path source : Text} {program : OwnedProgram} {info : Option WaiBytecodeInfo}
  {d : Data ByteStack}

/-- The run of a program that halts is reported as a success. -/
theorem run_of_halted (hload : loadProgramAuto host.load host.files path waiProgramInit
      (some zeroInfo) = (.ok, program, info))
    (h : Ends (isaStep program) (.zero ⟨fun _ => 0, waiStackStart⟩, 0) (.halted d)) :
    Prints host path d.printed := by
  have hruns : RunsAs program (isaStep program) (.zero ⟨fun _ => 0, waiStackStart⟩, 0) Prod.fst :=
    runsAs_of_lockStep (isa_lockStep program.length_le) (sameRun_start program)
      fun _ _ h => congrArg Prod.fst h.1
  obtain ⟨r, hshows, hends⟩ := hruns.ends host.regs _ h
  obtain ⟨c, rfl, hcode, rfl⟩ : ∃ c, r = .returned c ∧ waiVmExecute c = some .ok ∧ c.mem.data = d := by
    cases hshows with
    | halted hcode => exact ⟨_, rfl, hcode, rfl⟩
  have hend : runEnd host (.returned c) = some (host.succeeds (printedText c.mem.data.printed)) := by
    rw [runEnd, hcode]
    rfl
  intro name e
  show commandRun host path e ↔ _
  unfold commandRun withProgram
  rw [hload]
  constructor
  · rintro ⟨r, hr, he⟩
    obtain rfl := Machine.ends_unique hr hends
    exact Option.some.inj (he.symm.trans hend)
  · rintro rfl
    exact ⟨_, hends, hend⟩

/-- A source does not begin with the magic when its first character is not that of the magic. -/
theorem loads_source (hgrants : host.load.Grants) (hfile : HoldsSource host path source)
    (hfirst : source.head? ≠ some 'W')
    (hok : (waiAssembleSource .unlimited source).1.error = .ok) :
    loadProgramAuto host.load host.files path waiProgramInit (some zeroInfo) =
      (.ok, (waiAssembleSource .unlimited source).2, some zeroInfo) := by
  obtain ⟨content, hcontent, rfl⟩ := hfile
  refine load_source hgrants hcontent ?_ hok
  rw [← Bool.not_eq_true, hasWaibcMagic_iff]
  rintro ⟨rest, hrest⟩
  cases hrest
  exact hfirst rfl

/-- A source whose program comes to a `halt` is run, and prints what the program has printed. -/
theorem prints_of_leadsTo {n : Nat} {values : List WaiValue} (hgrants : host.load.Grants)
    (hfile : HoldsSource host path source) (hfirst : source.head? ≠ some 'W')
    (hok : (waiAssembleSource .unlimited source).1.error = .ok)
    (hget : ((waiAssembleSource .unlimited source).2.instructions.map numbered)[n]? =
      some (.halt, none))
    (h : LeadsTo (isaStep (waiAssembleSource .unlimited source).2)
      (· = (.zero ⟨fun _ => 0, waiStackStart⟩, 0)) (At n fun d => d.printed = values)) :
    Prints host path values := by
  obtain ⟨d, hends, rfl⟩ := halts_at hget h
  exact run_of_halted (loads_source hgrants hfile hfirst hok) hends

end Calls

end Waivm
