import Waivm.AssemblerErrors
import Waivm.AssemblerFile
import Waivm.SourceMeaning

/-!
# Sources put together, and other names

Two sources can be joined with a line feed between them. The assembler knows nothing of modules: there is
one label table, and a jump holds the number of an instruction. What it makes of the whole is nevertheless
what a linker would make of the two programs, when no label of one is stored under the name of a
label of the other.

Results:
1. `link_sources`: the joined source is accepted, and its program is the first program and the second
   one, moved behind it.
2. `joined_runs`: the joined program runs as the first one, until that leaves its code. Where it comes to
   its end, by itself or with a jump, the second one runs on what it has left, if it has no `call` and no
   `ret`.
3. `renamed_same`: the names of labels do not matter.
-/

namespace Waivm

open CString Isa
open LabelledCode (numberStep Checks Left Placeless AtBase relocate)
open X86 (Reg Val)
open Machine (Outcome LockStep LockStepUnless ReachesIn Ends)

/-! ## 1. The joined source -/

/-- The two sources, one behind the other. -/
def joinSources (front back : Text) : Text :=
  front ++ '\n' :: back

/-- No label of `items` and label of `items'` are stored as the same name. -/
def LabelsApart (items items' : List Item) : Prop :=
  ∀ name ∈ labelNames items, ∀ name' ∈ labelNames items', storedName name ≠ storedName name'

/-- An instruction of code that starts at number `base`. -/
def WaiInstruction.relocated (base : Nat) (ins : WaiInstruction) : WaiInstruction :=
  if ins.op ∈ WaiOpcode.jumps then { ins with imm := BitVec.ofNat 64 base + ins.imm } else ins

theorem sourceLines_join (front back : Text) :
    sourceLines (joinSources front back) = sourceLines front ++ sourceLines back := by
  have hsplit : ('\n' :: back).splitOn '\n' = [] :: back.splitOn '\n' := by
    rw [List.splitOn_cons_eq_if_modifyHead]
    rfl
  have hlines : sourceLines ('\n' :: back) = stripLine [] :: sourceLines back := by
    rw [sourceLines, hsplit]
    rfl
  rw [joinSources, sourceLines_append, hsplit, hlines, List.headD_cons, List.tail_cons,
    List.append_nil, ← List.singleton_append, ← List.append_assoc, ← sourceLines_eq]

section Join
variable {items items' : List Item} {name : Text}

/-- Where the first items define a name, nothing behind them matters. -/
theorem instructionsBefore_append_left {isName : Text → Bool}
    (h : ∃ label ∈ labelNames items, isName label = true) (items' : List Item) :
    instructionsBefore isName (items ++ items') = instructionsBefore isName items := by
  induction items with
  | nil =>
    obtain ⟨_, hlabel, _⟩ := h
    cases hlabel
  | cons item items ih =>
    cases item with
    | label other =>
      rw [List.cons_append, instructionsBefore_label, instructionsBefore_label]
      by_cases hother : isName other = true
      · rw [if_pos hother, if_pos hother]
      · rw [if_neg hother, if_neg hother]
        obtain ⟨label, hlabel, hname⟩ := h
        rcases List.mem_cons.mp hlabel with rfl | hlabel
        · exact absurd hname hother
        · exact ih ⟨label, hlabel, hname⟩
    | instruction instr target =>
      rw [List.cons_append, instructionsBefore_instruction, instructionsBefore_instruction, ih h]

/-- Where they do not, all their instructions come first. -/
theorem instructionsBefore_append_right {isName : Text → Bool}
    (h : ∀ label ∈ labelNames items, isName label = false) (items' : List Item) :
    instructionsBefore isName (items ++ items') =
      (instructionLines items).length + instructionsBefore isName items' := by
  induction items with
  | nil => exact (Nat.zero_add _).symm
  | cons item items ih =>
    cases item with
    | label other =>
      rw [List.cons_append, instructionsBefore_label, h other List.mem_cons_self,
        if_neg Bool.false_ne_true]
      exact ih fun label hlabel => h label (List.mem_cons_of_mem _ hlabel)
    | instruction instr target =>
      rw [List.cons_append, instructionsBefore_instruction, ih h, Nat.add_right_comm]
      rfl

theorem storedName_storedName (name : Text) : storedName (storedName name) = storedName name :=
  List.take_of_length_le (List.length_take_le _ _)

/-- The label table takes the joined source. -/
theorem accepts_append (h : TableAccepts items) (h' : TableAccepts items')
    (hapart : LabelsApart items items') : TableAccepts (items ++ items') where
  distinct := by
    rw [labelNames_append, List.pairwise_append]
    refine ⟨h.distinct, h'.distinct, fun name hname name' hname' heq => ?_⟩
    refine hapart name hname name' hname' ?_
    rw [← heq, storedName_storedName]
  found := by
    intro name hname
    rw [references_append, List.mem_append] at hname
    rw [labelNames_append]
    rcases hname with hname | hname
    · obtain ⟨label, hlabel, hstored⟩ := h.found name hname
      exact ⟨label, List.mem_append_left _ hlabel, hstored⟩
    · obtain ⟨label, hlabel, hstored⟩ := h'.found name hname
      exact ⟨label, List.mem_append_right _ hlabel, hstored⟩

/-- A label of the first source stands for what it stood for. -/
theorem sharedTarget_left (h : TableAccepts items) (hname : name ∈ references items) :
    sharedTarget (items ++ items') name = sharedTarget items name := by
  obtain ⟨label, hlabel, hstored⟩ := h.found name hname
  exact instructionsBefore_append_left ⟨label, hlabel, decide_eq_true hstored⟩ items'

/-- A label of the second source stands behind the first program. -/
theorem sharedTarget_right (h' : TableAccepts items') (hapart : LabelsApart items items')
    (hname : name ∈ references items') :
    sharedTarget (items ++ items') name =
      (instructionLines items).length + sharedTarget items' name := by
  obtain ⟨label, hlabel, hstored⟩ := h'.found name hname
  refine instructionsBefore_append_right (fun other hother => decide_eq_false fun heq => ?_) items'
  exact hapart other hother label hlabel (heq.trans hstored.symm)

end Join

/-- The program of a joined source is that of a linker. -/
theorem joined_instructions {front back : Text} {items items' : List Item}
    {program program' joined : OwnedProgram} (h : Assembled front items program)
    (h' : Assembled back items' program') (hapart : LabelsApart items items')
    (hjoined : Assembled (joinSources front back) (items ++ items') joined) :
    joined.instructions =
      program.instructions ++ program'.instructions.map (.relocated program.count) := by
  rw [hjoined.instructions, h.instructions, h'.instructions, instructionLines_append, List.map_append,
    List.map_map, h.count_eq]
  congr 1
  · refine List.map_congr_left fun line hline => ?_
    obtain ⟨instr, target⟩ := line
    cases target with
    | none => rfl
    | some name =>
      have hname : name ∈ references items := mem_references_iff.mpr ⟨instr, hline⟩
      rw [linkLine, linkLine, sharedTarget_left h.accepts hname]
  · refine List.map_congr_left fun line hline => ?_
    obtain ⟨instr, target⟩ := line
    have hjump := (h'.fits hline).2
    cases target with
    | none => exact (if_neg fun hop => Bool.false_ne_true (hjump.mp hop)).symm
    | some name =>
      have hname : name ∈ references items' := mem_references_iff.mpr ⟨instr, hline⟩
      rw [linkLine, sharedTarget_right h'.accepts hapart hname, BitVec.ofNat_add]
      exact (if_pos (hjump.mpr rfl)).symm

/-- What is asked of two sources and their labels. -/
def SourcesApart (front back : Text) : Prop :=
  ∀ items items', ReadsAs (sourceLines front) items → ReadsAs (sourceLines back) items' →
    LabelsApart items items'

theorem reads_join {front back : Text} {items items' : List Item}
    (h : ReadsAs (sourceLines front) items) (h' : ReadsAs (sourceLines back) items') :
    ReadsAs (sourceLines (joinSources front back)) (items ++ items') := by
  rw [sourceLines_join]
  exact readsAs_append h h'

/-- The program of a joined source, when it was assembled. -/
theorem joined_of_assembled {front back : Text} {items items' all : List Item}
    {program program' joined : OwnedProgram} (h : Assembled front items program)
    (h' : Assembled back items' program') (hapart : LabelsApart items items')
    (hjoined : Assembled (joinSources front back) all joined) :
    joined.instructions =
      program.instructions ++ program'.instructions.map (.relocated program.count) := by
  obtain rfl : all = items ++ items' := readsAs_unique hjoined.reads (reads_join h.reads h'.reads)
  exact joined_instructions h h' hapart hjoined

/-- Two sources whose labels are stored under different names are linked when they are joined. -/
theorem link_sources {alloc : AssemblerAlloc} {front back : Text}
    (hfront : (waiAssembleSource alloc front).1.error = .ok)
    (hback : (waiAssembleSource alloc back).1.error = .ok) (hapart : SourcesApart front back) :
    ((waiAssembleSource alloc (joinSources front back)).1.error = .ok ∨
      (waiAssembleSource alloc (joinSources front back)).1.error = .errOom) ∧
    ((waiAssembleSource alloc (joinSources front back)).1.error = .ok →
      (waiAssembleSource alloc (joinSources front back)).2.instructions =
        (waiAssembleSource alloc front).2.instructions ++
          (waiAssembleSource alloc back).2.instructions.map
            (.relocated (waiAssembleSource alloc front).2.count)) := by
  obtain ⟨items, h⟩ := assembled_of_accepted hfront
  obtain ⟨items', h'⟩ := assembled_of_accepted hback
  have hnames := hapart items items' h.reads h'.reads
  refine ⟨assembles_of_items (reads_join h.reads h'.reads)
    (accepts_append h.accepts h'.accepts hnames), fun hok => ?_⟩
  obtain ⟨all, hjoined⟩ := assembled_of_accepted hok
  exact joined_of_assembled h h' hnames hjoined

theorem apart_of_reads {front back : Text} {items items' : List Item}
    (h : ReadsAs (sourceLines front) items) (h' : ReadsAs (sourceLines back) items')
    (hapart : LabelsApart items items') : SourcesApart front back := by
  intro other other' hother hother'
  rwa [readsAs_unique hother h, readsAs_unique hother' h']

/-- The lines of a loop with the label `name`. -/
def loopItems (name : Text) : List Item :=
  [.instruction (makeInstr .nop) none, .label name, .instruction (makeInstr .jmp) (some name)]

/-- `loopSource` with the label `b`. -/
def loopSourceB : Text :=
  ['n', 'o', 'p', '\n', 'b', ' ', ':', '\n', 'j', 'm', 'p', ' ', 'b', '\n']

theorem reads_loop {c : Char} {source : Text}
    (hlines : sourceLines source = [['n', 'o', 'p'], [c, ' ', ':'], ['j', 'm', 'p', ' ', c], []])
    (hjump : parseTokens (tokensOf ['j', 'm', 'p', ' ', c]) = some (makeInstr .jmp, some [c]))
    (hname : isIdentifier (trim [c, ' ']) = true) (htrim : trim [c, ' '] = [c])
    (hc : isspace c = false ∧ c ≠ ':') : ReadsAs (sourceLines source) (loopItems [c]) := by
  have hnop : LineItem ['n', 'o', 'p'] (.instruction (makeInstr .nop) none) :=
    (lineItem_of_no_colon (by decide)).mpr ⟨_, _, by decide, rfl⟩
  have hlabel : LineItem [c, ' ', ':'] (.label [c]) := by
    refine (@lineItem_of_colon [c, ' '] _ fun d hd => ?_).mpr ⟨hname, by rw [htrim]⟩
    obtain rfl : c = d := Option.some.inj hd
    exact hc.1
  have hjmp : LineItem ['j', 'm', 'p', ' ', c] (.instruction (makeInstr .jmp) (some [c])) :=
    (lineItem_of_no_colon (by simpa using hc.2)).mpr ⟨_, _, hjump, rfl⟩
  rw [hlines]
  exact .item hnop (.item hlabel (.item hjmp (.blank nofun .nil)))

theorem loop_reads : ReadsAs (sourceLines loopSource) (loopItems ['a']) :=
  reads_loop (by decide) (by decide) (by decide) (by decide) (by decide)

theorem loop_reads_b : ReadsAs (sourceLines loopSourceB) (loopItems ['b']) :=
  reads_loop (by decide) (by decide) (by decide) (by decide) (by decide)

/-- A loop and another one behind it. -/
theorem link_sources_loops :
    (waiAssembleSource .unlimited (joinSources loopSource loopSourceB)).2.instructions =
      (waiAssembleSource .unlimited loopSource).2.instructions ++
        (waiAssembleSource .unlimited loopSourceB).2.instructions.map
          (.relocated (waiAssembleSource .unlimited loopSource).2.count) := by
  have hapart : LabelsApart (loopItems ['a']) (loopItems ['b']) := by
    unfold LabelsApart
    decide
  exact (link_sources (by decide) (by decide) (apart_of_reads loop_reads loop_reads_b hapart)).2
    (by decide)

/-! ## 2. Runs of the joined program -/

/-- The run went to a place where its program has no instruction. -/
def LeavesCode (r : Result ByteStack) : Prop :=
  ∃ d, r = .stopped (.error .errIpOutOfBounds) d ∨ r = .stopped (.error .errBadJump) d

/-- The instruction set on the code of a program. -/
def isaStep (program : OwnedProgram) :
    Data ByteStack × Nat → Outcome (Data ByteStack × Nat) (Result ByteStack) :=
  numberStep (language machineMemory) (program.instructions.map numbered)

/-- How `joined` runs, when it is `front` with `back` behind it. -/
structure RunsJoined (front back joined : OwnedProgram) : Prop where
  /-- While the first program runs, the whole is in the same state. -/
  executed : ∀ regs n vm, Executed regs front.initialVm n vm →
    ∃ vm', Executed regs joined.initialVm n vm' ∧ vm'.data = vm.data ∧ vm'.ip = vm.ip
  /-- They end in the same way, unless the first program leaves its code. -/
  ended : ∀ regs e, Ends asmStep (asmEntry regs front.initialVm) e → ∃ r, ShowsResult e r ∧
    (LeavesCode r ∨ ∃ e', ShowsResult e' r ∧ Ends asmStep (asmEntry regs joined.initialVm) e')
  /-- A jump to the end of the first program goes to the second one. -/
  crosses : back.instructions ≠ [] → ∀ regs n vm ins condition,
    Executed regs front.initialVm n vm → front.instructions[vm.ip.toNat]? = some ins →
    decode ins = .jump condition → vm.data.holds condition = .ok true →
    ins.imm.toNat = front.count →
    ∃ vm', Executed regs joined.initialVm (n + 1) vm' ∧ vm'.data = vm.data ∧ vm'.ip.toNat = front.count
  /-- From the end of the first program on, the second one runs on what is there. -/
  behind : (∀ ins ∈ back.instructions, ins.op ≠ .call ∧ ins.op ≠ .ret) →
    ∀ regs n vm, Executed regs joined.initialVm n vm → vm.ip.toNat = front.count →
    ∀ r, Ends (isaStep back) (vm.data, 0) r →
      ∃ e, ShowsResult e r ∧ Ends asmStep (asmEntry regs joined.initialVm) e

section Runs
variable {front back joined : OwnedProgram} {ins : WaiInstruction} {base : Nat}

/-- A jump and a `call` to a place that does not exist are the only operations that look for one. -/
theorem checks_operation {M : Type} (mm : MemoryModel M) (op : Operation) :
    Checks (language mm) op := by
  intro next d
  cases op with
  | call => exact .inl ⟨d, rfl⟩
  | jump condition =>
    have hrun : ∀ target, (language mm).exec (.jump condition) next target d =
        moveOf d (d.holds condition >>= fun taken =>
          if !taken then pure (.forward d)
          else if target then pure (.jump d)
          else throw (.error .errBadJump)) := fun _ => rfl
    rw [hrun, hrun]
    rcases d.holds condition with why | (_ | _)
    · exact .inr rfl
    · exact .inr rfl
    · exact .inl ⟨d, rfl⟩
  | _ => exact .inr rfl

theorem jump_of_decode {condition : Condition} (h : decode ins = .jump condition) :
    ins.op ∈ WaiOpcode.jumps := by
  unfold decode at h
  split at h <;> first | (next hop => rw [hop]; decide) | cases h

/-- An instruction that is moved, as numbered code. -/
theorem numbered_relocated (hfits : ins.op ∈ WaiOpcode.jumps → base + ins.imm.toNat < 2 ^ 64) :
    numbered (ins.relocated base) = ((numbered ins).1, (numbered ins).2.map (base + ·)) := by
  unfold WaiInstruction.relocated
  by_cases hjump : ins.op ∈ WaiOpcode.jumps
  · have hbase : base < 2 ^ 64 := Nat.lt_of_le_of_lt (Nat.le_add_right _ _) (hfits hjump)
    have himm : (BitVec.ofNat 64 base + ins.imm).toNat = base + ins.imm.toNat := by
      rw [BitVec.toNat_add, BitVec.toNat_ofNat, Nat.mod_eq_of_lt hbase, Nat.mod_eq_of_lt (hfits hjump)]
    rw [if_pos hjump]
    unfold numbered
    rw [decode_withTarget hjump, if_pos hjump, himm]
    rw [show ({ ins with imm := BitVec.ofNat 64 base + ins.imm } : WaiInstruction).op = ins.op from rfl,
      if_pos hjump]
    rfl
  · rw [if_neg hjump]
    unfold numbered
    rw [if_neg hjump]
    rfl

theorem exists_of_bind {ε α β : Type} {x : Except ε α} {f : α → Except ε β} {b : β}
    (h : (x >>= f) = .ok b) : ∃ a, x = .ok a ∧ f a = .ok b := by
  cases x with
  | error e => cases h
  | ok a => exact ⟨a, rfl, h⟩

/-- Only `ret` goes to a number that it finds. -/
theorem run_resume {M : Type} {mm : MemoryModel M} {next n : Nat} {target : Bool} {d d' : Data M}
    {op : Operation} (h : op.run mm next target d = .ok (.resume d' n)) : op = .ret := by
  cases op with
  | ret => rfl
  | halt | invalid | nop => cases h
  | call =>
    cases target with
    | false => cases h
    | true =>
      obtain ⟨_, _, h⟩ := exists_of_bind h
      cases h
  | jump condition =>
    obtain ⟨taken, _, h⟩ := exists_of_bind h
    split at h
    · cases h
    · split at h <;> cases h
  | binary op a source =>
    obtain ⟨_, _, h⟩ := exists_of_bind h
    obtain ⟨_, _, h⟩ := exists_of_bind h
    obtain ⟨_, _, h⟩ := exists_of_bind h
    cases h
  | load a address | store address a =>
    obtain ⟨_, _, h⟩ := exists_of_bind h
    obtain ⟨_, _, h⟩ := exists_of_bind h
    obtain ⟨_, _, h⟩ := exists_of_bind h
    cases h
  | compare a source | push a | pop a =>
    obtain ⟨_, _, h⟩ := exists_of_bind h
    obtain ⟨_, _, h⟩ := exists_of_bind h
    cases h
  | print a =>
    obtain ⟨_, _, h⟩ := exists_of_bind h
    cases h

/-- Of the operations, only `call` and `ret` deal with numbers of instructions. -/
theorem placeless_decode (h : ins.op ≠ .call ∧ ins.op ≠ .ret) :
    Placeless (language machineMemory) (decode ins) := by
  have hcall : decode ins ≠ .call := by
    intro hd
    unfold decode at hd
    split at hd <;> first | exact h.1 ‹_› | cases hd
  have hret : decode ins ≠ .ret := by
    intro hd
    unfold decode at hd
    split at hd <;> first | exact h.2 ‹_› | cases hd
  generalize decode ins = op at hcall hret
  constructor
  · intro next next' target s
    cases op with
    | call => exact absurd rfl hcall
    | _ => rfl
  · intro next target s s' n hresume
    have hmove : moveOf s (op.run machineMemory next target s) = .resume s' n := hresume
    cases hrun : op.run machineMemory next target s with
    | error why =>
      rw [hrun] at hmove
      cases hmove
    | ok move =>
      rw [hrun] at hmove
      have hmove : move = .resume s' n := hmove
      exact hret (run_resume (hrun.trans (congrArg _ hmove)))

/-- Code behind a program runs as it should. -/
theorem runsJoined_of_code
    (hcode : joined.instructions =
      front.instructions ++ back.instructions.map (.relocated front.count))
    (hfits : ∀ ins ∈ back.instructions, ins.op ∈ WaiOpcode.jumps →
      front.count + ins.imm.toNat < 2 ^ 64) :
    RunsJoined front back joined := by
  have hnumbered : joined.instructions.map numbered =
      front.instructions.map numbered ++ relocate front.count (back.instructions.map numbered) := by
    rw [hcode, List.map_append, relocate, List.map_map, List.map_map]
    refine congrArg _ (List.map_congr_left fun ins hins => ?_)
    exact numbered_relocated (hfits ins hins)
  have hlength : (front.instructions.map numbered).length = front.count := by
    rw [List.length_map, front.count_eq_length]
  have hfront := isa_lockStep front.length_le
  have hjoined := isa_lockStep joined.length_le
  have hprefix : LockStepUnless (Left (language machineMemory)) (isaStep joined) (isaStep front)
      (· = ·) (· = ·) := by
    unfold isaStep
    rw [hnumbered]
    exact LabelledCode.front_lockStep (fun pair _ => checks_operation _ pair.1) _
  -- the joined program comes to the state in which the first one is
  have hexecuted : ∀ regs n vm, Executed regs front.initialVm n vm →
      ReachesIn (isaStep joined) n (.zero ⟨fun _ => 0, waiStackStart⟩, 0) (vm.data, vm.ip.toNat) := by
    intro regs n vm hvm
    obtain ⟨a, ⟨rfl, _⟩, ha⟩ := hfront.reachesIn_reflect (sameRun_start front)
      ((executed_iff (initial_runnable front)).mp hvm)
    obtain ⟨_, rfl, hreach⟩ := hprefix.reachesIn rfl ha
    exact hreach
  -- and the engine is in the states of the joined program
  have hrun : ∀ regs n d ip,
      ReachesIn (isaStep joined) n (.zero ⟨fun _ => 0, waiStackStart⟩, 0) (d, ip) →
      ∃ vm, Executed regs joined.initialVm n vm ∧ vm.data = d ∧ vm.ip.toNat = ip := by
    intro regs n d ip h
    obtain ⟨vm, ⟨hsame, _⟩, hreach⟩ := hjoined.reachesIn (sameRun_start joined) h
    obtain ⟨hdata, hip⟩ := Prod.mk.inj hsame
    exact ⟨vm, (executed_iff (initial_runnable joined)).mpr hreach, hdata.symm, hip.symm⟩
  have hengine : RunsAs joined (isaStep joined) (.zero ⟨fun _ => 0, waiStackStart⟩, 0) Prod.fst :=
    runsAs_of_lockStep hjoined (sameRun_start joined) fun _ _ h => congrArg Prod.fst h.1
  refine ⟨?_, ?_, ?_, ?_⟩
  · intro regs n vm hvm
    obtain ⟨vm', hvm', hdata, hip⟩ := hrun regs n _ _ (hexecuted regs n vm hvm)
    exact ⟨vm', hvm', hdata, BitVec.eq_of_toNat_eq hip⟩
  · intro regs e he
    have hrunsFront : RunsAs front (isaStep front) (.zero ⟨fun _ => 0, waiStackStart⟩, 0) Prod.fst :=
      runsAs_of_lockStep hfront (sameRun_start front) fun _ _ h => congrArg Prod.fst h.1
    obtain ⟨r, hr, hends⟩ := hrunsFront.ended regs e he
    refine ⟨r, hr, ?_⟩
    by_cases hleft : LeavesCode r
    · exact .inl hleft
    · obtain ⟨_, rfl, hends'⟩ := hprefix.ends rfl hends hleft
      exact .inr (hengine.ends regs _ hends')
  · intro hback regs n vm ins condition hvm hins hdecode htaken htarget
    have hget : (joined.instructions.map numbered)[vm.ip.toNat]? =
        some (.jump condition, some front.count) := by
      have hlt : vm.ip.toNat < (front.instructions.map numbered).length :=
        (List.length_map numbered).symm ▸ (List.getElem?_eq_some_iff.mp hins).1
      rw [hnumbered, List.getElem?_append_left hlt, List.getElem?_map, hins, Option.map_some, numbered,
        hdecode, if_pos (jump_of_decode hdecode), htarget]
    have hlt : front.count < (joined.instructions.map numbered).length := by
      rw [hnumbered, List.length_append, hlength, relocate, List.length_map, List.length_map]
      exact Nat.lt_add_of_pos_right (List.length_pos_iff.mpr hback)
    have hstep : isaStep joined (vm.data, vm.ip.toNat) = .next (vm.data, front.count) := by
      unfold isaStep numberStep
      rw [hget]
      have hexec : (language machineMemory).exec (.jump condition) (vm.ip.toNat + 1) true vm.data =
          .jump vm.data := by
        show moveOf vm.data (vm.data.holds condition >>= _) = _
        rw [htaken]
        rfl
      simp only [Option.getD_some, hlt, decide_true, hexec]
      exact if_pos hlt
    exact hrun regs (n + 1) _ _ (Machine.reachesIn_succ (hexecuted regs n vm hvm) hstep)
  · intro hplaceless regs n vm hvm hip r hr
    have hbehind : LockStep (isaStep joined) (isaStep back) (AtBase front.count) (· = ·) := by
      unfold isaStep
      rw [hnumbered, ← hlength]
      refine LabelledCode.behind_lockStep _ fun pair hpair => ?_
      obtain ⟨ins, hins, rfl⟩ := List.mem_map.mp hpair
      exact placeless_decode (hplaceless ins hins)
    obtain ⟨_, rfl, hends⟩ := hbehind.ends rfl hr
    obtain ⟨_, ⟨rfl, _⟩, hreach⟩ := hjoined.reachesIn_reflect (sameRun_start joined)
      ((executed_iff (initial_runnable joined)).mp hvm)
    rw [hip] at hreach
    exact hengine.ends regs _ (Machine.ends_of_reaches ⟨n, hreach⟩ hends)

end Runs

/-- A joined source runs as its two parts, one after the other. -/
theorem joined_runs {alloc : AssemblerAlloc} {front back : Text}
    (hfront : (waiAssembleSource alloc front).1.error = .ok)
    (hback : (waiAssembleSource alloc back).1.error = .ok) (hapart : SourcesApart front back)
    (hjoined : (waiAssembleSource alloc (joinSources front back)).1.error = .ok) :
    RunsJoined (waiAssembleSource alloc front).2 (waiAssembleSource alloc back).2
      (waiAssembleSource alloc (joinSources front back)).2 := by
  obtain ⟨items, h⟩ := assembled_of_accepted hfront
  obtain ⟨items', h'⟩ := assembled_of_accepted hback
  obtain ⟨all, hall⟩ := assembled_of_accepted hjoined
  refine runsJoined_of_code (joined_of_assembled h h' (hapart items items' h.reads h'.reads) hall)
    fun ins hins hjump => ?_
  have htarget := ((h'.emitted ins hins).target hjump).2
  have hcount := (waiAssembleSource alloc front).2.count_le
  have hcount' := (waiAssembleSource alloc back).2.count_le
  have hmax : maxInstructions + maxInstructions < 2 ^ 64 := by decide
  omega

/-- A jump to the end of the source. -/
def leaveSource : Text :=
  ['j', 'm', 'p', ' ', 'e', '\n', 'e', ':', '\n']

theorem leave_reads : ReadsAs (sourceLines leaveSource)
    [.instruction (makeInstr .jmp) (some ['e']), .label ['e']] := by
  have hlines : sourceLines leaveSource = [['j', 'm', 'p', ' ', 'e'], ['e', ':'], []] := by decide
  have hjump : LineItem ['j', 'm', 'p', ' ', 'e'] (.instruction (makeInstr .jmp) (some ['e'])) :=
    (lineItem_of_no_colon (by decide)).mpr ⟨_, _, by decide, rfl⟩
  have hlabel : LineItem ['e', ':'] (.label ['e']) :=
    (@lineItem_of_colon ['e'] _ fun d hd => Option.some.inj hd ▸ rfl).mpr ⟨by decide, by decide⟩
  rw [hlines]
  exact .item hjump (.item hlabel (.blank nofun .nil))

/-- A jump to the loop that is put behind it. -/
theorem joined_runs_loop :
    RunsJoined (waiAssembleSource .unlimited leaveSource).2 (waiAssembleSource .unlimited loopSource).2
      (waiAssembleSource .unlimited (joinSources leaveSource loopSource)).2 := by
  have hapart : LabelsApart [.instruction (makeInstr .jmp) (some ['e']), .label ['e']]
      (loopItems ['a']) := by
    unfold LabelsApart
    decide
  exact joined_runs (by decide) (by decide) (apart_of_reads leave_reads loop_reads hapart) (by decide)

/-! ## 3. Other names -/

/-- A line in which the labels have other names. -/
def Item.rename (f : Text → Text) : Item → Item
  | .label name => .label (f name)
  | .instruction instr target => .instruction instr (target.map f)

/-- `f` gives the names of `items` other names, that fit in the label table as they do. -/
structure Renames (f : Text → Text) (items : List Item) : Prop where
  fits : ∀ item ∈ items, ∀ name ∈ item.names, name.length ≤ 63 ∧ (f name).length ≤ 63
  injective : ∀ item ∈ items, ∀ item' ∈ items, ∀ name ∈ item.names, ∀ name' ∈ item'.names,
    f name = f name' → name = name'

section Rename
variable {f : Text → Text} {items : List Item} {name name' : Text}

theorem labelNames_rename (items : List Item) :
    labelNames (items.map (.rename f)) = (labelNames items).map f := by
  induction items with
  | nil => rfl
  | cons item items ih =>
    cases item with
    | label name => exact congrArg (f name :: ·) ih
    | instruction instr target => exact ih

theorem instructionLines_rename (items : List Item) :
    instructionLines (items.map (.rename f)) =
      (instructionLines items).map fun line => (line.1, line.2.map f) := by
  induction items with
  | nil => rfl
  | cons item items ih =>
    cases item with
    | label name => exact ih
    | instruction instr target => exact congrArg ((instr, target.map f) :: ·) ih

theorem mem_references_rename :
    name' ∈ references (items.map (.rename f)) ↔ ∃ name ∈ references items, f name = name' := by
  rw [mem_references_iff, instructionLines_rename]
  constructor
  · rintro ⟨instr, hmem⟩
    obtain ⟨⟨instr', target⟩, hline, heq⟩ := List.mem_map.mp hmem
    obtain ⟨rfl, htarget⟩ := Prod.mk.inj heq
    obtain ⟨name, rfl, rfl⟩ := Option.map_eq_some_iff.mp htarget
    exact ⟨name, mem_references_iff.mpr ⟨instr', hline⟩, rfl⟩
  · rintro ⟨name, hname, rfl⟩
    obtain ⟨instr, hline⟩ := mem_references_iff.mp hname
    exact ⟨instr, List.mem_map.mpr ⟨_, hline, rfl⟩⟩

theorem instructionsBefore_rename (isName : Text → Bool) (items : List Item) :
    instructionsBefore isName (items.map (.rename f)) =
      instructionsBefore (fun name => isName (f name)) items := by
  induction items with
  | nil => rfl
  | cons item items ih =>
    cases item with
    | label name =>
      rw [List.map_cons, Item.rename, instructionsBefore_label, instructionsBefore_label, ih]
    | instruction instr target =>
      rw [List.map_cons, Item.rename, instructionsBefore_instruction, instructionsBefore_instruction, ih]

namespace Renames

/-- Two names are stored as one exactly when they are one, under both names. -/
theorem stored_iff (h : Renames f items) {item item' : Item} (hitem : item ∈ items)
    (hitem' : item' ∈ items) (hname : name ∈ item.names) (hname' : name' ∈ item'.names) :
    storedName (f name) = storedName (f name') ↔ storedName name = storedName name' := by
  obtain ⟨hlen, hlen'⟩ := h.fits item hitem name hname
  obtain ⟨hlenb, hlenb'⟩ := h.fits item' hitem' name' hname'
  rw [storedName_of_fit hlen, storedName_of_fit hlen', storedName_of_fit hlenb,
    storedName_of_fit hlenb']
  exact ⟨h.injective item hitem item' hitem' name hname name' hname', congrArg f⟩

theorem mem_label (hname : name ∈ labelNames items) :
    ∃ item ∈ items, name ∈ item.names :=
  ⟨.label name, mem_labelNames_iff.mp hname, List.mem_cons_self⟩

theorem mem_reference (hname : name ∈ references items) : ∃ item ∈ items, name ∈ item.names := by
  obtain ⟨instr, hline⟩ := mem_references_iff.mp hname
  exact ⟨_, mem_instructionLines_iff.mp hline, List.mem_cons_self⟩

/-- The label table takes the other names. -/
theorem accepts (h : Renames f items) (haccepts : TableAccepts items) :
    TableAccepts (items.map (.rename f)) where
  distinct := by
    rw [labelNames_rename, List.pairwise_map]
    refine haccepts.distinct.imp_of_mem fun {name name'} hname hname' hne heq => ?_
    obtain ⟨item, hitem, hname⟩ := mem_label hname
    obtain ⟨item', hitem', hname'⟩ := mem_label hname'
    have hfit' := storedName_of_fit (h.fits item' hitem' name' hname').2
    have hfit := storedName_of_fit (h.fits item' hitem' name' hname').1
    exact hne (((h.stored_iff hitem hitem' hname hname').mp (heq.trans hfit'.symm)).trans hfit)
  found := by
    intro name' hname'
    obtain ⟨name, hname, rfl⟩ := mem_references_rename.mp hname'
    obtain ⟨label, hlabel, hstored⟩ := haccepts.found name hname
    obtain ⟨item, hitem, hlabel'⟩ := mem_label hlabel
    obtain ⟨item', hitem', hname⟩ := mem_reference hname
    rw [labelNames_rename]
    exact ⟨f label, List.mem_map_of_mem hlabel, (h.stored_iff hitem hitem' hlabel' hname).mpr hstored⟩

/-- A label stands for the same number under its other name. -/
theorem target (h : Renames f items) (hname : name ∈ references items) :
    sharedTarget (items.map (.rename f)) (f name) = sharedTarget items name := by
  rw [sharedTarget, instructionsBefore_rename]
  refine instructionsBefore_congr fun label hlabel => ?_
  obtain ⟨item, hitem, hlabel⟩ := mem_label hlabel
  obtain ⟨item', hitem', hname⟩ := mem_reference hname
  exact decide_eq_decide.mpr (h.stored_iff hitem hitem' hlabel hname)

end Renames

/-- Sources that differ in the names of their labels make the same program. -/
theorem renamed_same {alloc : AssemblerAlloc} {source source' : Text}
    (hreads : ReadsAs (sourceLines source) items)
    (hreads' : ReadsAs (sourceLines source') (items.map (.rename f))) (h : Renames f items)
    (hok : (waiAssembleSource alloc source).1.error = .ok) :
    ((waiAssembleSource alloc source').1.error = .ok ∨
      (waiAssembleSource alloc source').1.error = .errOom) ∧
    ((waiAssembleSource alloc source').1.error = .ok →
      (waiAssembleSource alloc source').2.instructions =
        (waiAssembleSource alloc source).2.instructions) := by
  obtain ⟨items₁, hsource⟩ := assembled_of_accepted hok
  obtain rfl := readsAs_unique hsource.reads hreads
  refine ⟨assembles_of_items hreads' (h.accepts hsource.accepts), fun hok' => ?_⟩
  obtain ⟨items₂, hsource'⟩ := assembled_of_accepted hok'
  obtain rfl := readsAs_unique hsource'.reads hreads'
  rw [hsource'.instructions, hsource.instructions, instructionLines_rename, List.map_map]
  refine List.map_congr_left fun line hline => ?_
  obtain ⟨instr, target⟩ := line
  cases target with
  | none => rfl
  | some name =>
    have hname : name ∈ references items₁ := mem_references_iff.mpr ⟨instr, hline⟩
    exact congrArg (fun n => { instr with imm := BitVec.ofNat 64 n }) (h.target hname)

end Rename

/-- The label of the loop can have another name. -/
theorem renamed_same_loop :
    (waiAssembleSource .unlimited loopSourceB).2.instructions =
      (waiAssembleSource .unlimited loopSource).2.instructions := by
  have hnames : ∀ item ∈ loopItems ['a'], ∀ name ∈ item.names, name = ['a'] := by decide
  have hrenames : Renames (fun _ => ['b']) (loopItems ['a']) := by
    refine ⟨fun item hitem name hname => ?_, fun item hitem item' hitem' name hname name' hname' _ => ?_⟩
    · rw [hnames item hitem name hname]
      decide
    · rw [hnames item hitem name hname, hnames item' hitem' name' hname']
  exact (renamed_same loop_reads loop_reads_b hrenames (by decide)).2 (by decide)

end Waivm
