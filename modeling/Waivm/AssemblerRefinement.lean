import Waivm.AssemblerLabels

/-!
# The assembler against the two-pass reading

Results:

1. `assembler_refines_reference`: when no label name is longer than the 63 characters
   that the table stores, the assembler accepts exactly the sources that the two-pass
   reading accepts, and gives the same program.
2. `labels_exact_iff`: for names of any length, the jumps of an accepted source go
   where the source says exactly when no long name is confused with another one.
-/

namespace Waivm

open CString

/-! ## Names that fit -/

/-- The label names that a line mentions. -/
def Item.names : Item → List Text
  | .label name => [name]
  | .instruction _ target => target.toList

/-- Every label that a line of the source defines or refers to has at most 63 characters. -/
def LabelNamesFit (source : Text) : Prop :=
  ∀ line ∈ sourceLines source, ∀ item, LineItem line item → ∀ name ∈ item.names, name.length ≤ 63

section Names
variable {items : List Item} {source : Text} {name : Text}

theorem mem_labelNames_iff : name ∈ labelNames items ↔ .label name ∈ items := by
  rw [labelNames, List.mem_filterMap]
  constructor
  · rintro ⟨item, hitem, h⟩
    cases item with
    | label other =>
      cases h
      exact hitem
    | instruction _ _ => cases h
  · intro h
    exact ⟨.label name, h, rfl⟩

theorem mem_references_iff :
    name ∈ references items ↔ ∃ instr, (instr, some name) ∈ instructionLines items := by
  rw [references, List.mem_filterMap]
  constructor
  · rintro ⟨⟨instr, target⟩, hmem, h⟩
    obtain rfl : target = some name := h
    exact ⟨instr, hmem⟩
  · rintro ⟨instr, hmem⟩
    exact ⟨(instr, some name), hmem, rfl⟩

theorem mem_instructionLines_iff {instr : WaiInstruction} {target : Option Text} :
    (instr, target) ∈ instructionLines items ↔ .instruction instr target ∈ items := by
  rw [instructionLines, List.mem_filterMap]
  constructor
  · rintro ⟨item, hitem, h⟩
    cases item with
    | label _ => cases h
    | instruction _ _ =>
      cases h
      exact hitem
  · intro h
    exact ⟨.instruction instr target, h, rfl⟩

/-- Every item is said by a line. -/
theorem exists_line_of_readsAs {lines : List Text} (h : ReadsAs lines items) {item : Item}
    (hitem : item ∈ items) : ∃ line ∈ lines, LineItem line item := by
  induction h with
  | nil => cases hitem
  | blank _ _ ih =>
    obtain ⟨line, hline, hreads⟩ := ih hitem
    exact ⟨line, List.mem_cons_of_mem _ hline, hreads⟩
  | item hreads _ ih =>
    rcases List.mem_cons.mp hitem with rfl | hitem
    · exact ⟨_, List.mem_cons_self, hreads⟩
    · obtain ⟨line, hline, hreads⟩ := ih hitem
      exact ⟨line, List.mem_cons_of_mem _ hline, hreads⟩

/-- A name that fits is stored as it is. -/
theorem storedName_of_fit (h : name.length ≤ 63) : storedName name = name :=
  List.take_of_length_le h

theorem stored_label (hfit : LabelNamesFit source) (hreads : ReadsAs (sourceLines source) items)
    (h : name ∈ labelNames items) : storedName name = name := by
  obtain ⟨line, hline, hitem⟩ := exists_line_of_readsAs hreads (mem_labelNames_iff.mp h)
  exact storedName_of_fit (hfit line hline _ hitem name List.mem_cons_self)

theorem stored_reference (hfit : LabelNamesFit source) (hreads : ReadsAs (sourceLines source) items)
    (h : name ∈ references items) : storedName name = name := by
  obtain ⟨instr, hmem⟩ := mem_references_iff.mp h
  obtain ⟨line, hline, hitem⟩ :=
    exists_line_of_readsAs hreads (mem_instructionLines_iff.mp hmem)
  exact storedName_of_fit (hfit line hline _ hitem name List.mem_cons_self)

/-- Two predicates that agree on the labels stop at the same definition. -/
theorem instructionsBefore_congr {isName isName' : Text → Bool}
    (h : ∀ label ∈ labelNames items, isName label = isName' label) :
    instructionsBefore isName items = instructionsBefore isName' items := by
  induction items with
  | nil => rfl
  | cons item rest ih =>
    cases item with
    | label name =>
      rw [instructionsBefore_label, instructionsBefore_label, h name List.mem_cons_self,
        ih fun label hlabel => h label (List.mem_cons_of_mem _ hlabel)]
    | instruction instr target =>
      rw [instructionsBefore_instruction, instructionsBefore_instruction, ih h]

/-- The label table accepts names that fit when they are defined once, and are defined
at all. -/
theorem tableAccepts_iff (hfit : LabelNamesFit source) (hreads : ReadsAs (sourceLines source) items) :
    TableAccepts items ↔ LabelsDefined items := by
  have hdistinct : ((labelNames items).Pairwise fun earlier later => storedName earlier ≠ later) ↔
      (labelNames items).Nodup :=
    List.Pairwise.iff_of_mem fun ha _ => by rw [stored_label hfit hreads ha]
  have hfound : ∀ name ∈ references items,
      (∃ label ∈ labelNames items, storedName label = storedName name) ↔
        name ∈ labelNames items := by
    intro name hname
    rw [stored_reference hfit hreads hname]
    constructor
    · rintro ⟨label, hlabel, heq⟩
      rw [stored_label hfit hreads hlabel] at heq
      exact heq ▸ hlabel
    · intro hlabel
      exact ⟨name, hlabel, stored_label hfit hreads hlabel⟩
  constructor
  · intro h
    exact ⟨hdistinct.mp h.distinct, fun name hname => (hfound name hname).mp (h.found name hname)⟩
  · intro h
    exact ⟨hdistinct.mpr h.nodup, fun name hname => (hfound name hname).mpr (h.defined name hname)⟩

/-- The table resolves names that fit as the second pass does. -/
theorem sharedTarget_eq (hfit : LabelNamesFit source) (hreads : ReadsAs (sourceLines source) items)
    (h : name ∈ references items) : sharedTarget items name = labelTarget items name := by
  refine instructionsBefore_congr fun label hlabel => ?_
  rw [stored_label hfit hreads hlabel, stored_reference hfit hreads h]

end Names

/-- A label name is no longer than a line that mentions it, so short lines are fine. -/
theorem labelNamesFit_of_short {source : Text} (h : ∀ line ∈ sourceLines source, line.length ≤ 63) :
    LabelNamesFit source := by
  intro line hline item hitem name hname
  refine Nat.le_trans ?_ (h line hline)
  cases hitem with
  | @label label blanks _ _ =>
    obtain rfl := List.mem_singleton.mp hname
    rw [List.append_assoc, List.length_append]
    exact Nat.le_add_right _ _
  | @instruction _ instr target hform =>
    obtain rfl : target = some name := Option.mem_toList.mp hname
    have htoken : name ∈ tokensOf line := by
      generalize tokensOf line = tokens at hform
      cases hform <;> simp
    rw [tokensOf_eq] at htoken
    exact length_le_of_mem_pieces htoken

/-! ## Allocation -/

/-- Every request for memory is granted. -/
structure AssemblerAlloc.Grants (alloc : AssemblerAlloc) : Prop where
  buffer : alloc.buffer = true
  copy : alloc.copy = true
  labels : ∀ n, alloc.labels n = true
  pending : ∀ n, alloc.pending n = true
  code : ∀ n, alloc.code n = true

/-- The capacities that `wai_program_push` reaches. -/
def Doubled (capacity : Nat) : Prop :=
  capacity = 0 ∨ ∃ k, capacity = 2 ^ (k + 4)

section Grants
variable {alloc : AssemblerAlloc} {state : AssemblyState} {lineNumber : Nat}

theorem push_granted {allocates : Nat → Bool} {program : OwnedProgram} (instr : WaiInstruction)
    (h : ∀ n, allocates n = true) (hcapacity : Doubled program.capacity)
    (hcount : program.count < 2 ^ 60) :
    ∃ program', waiProgramPush allocates program instr = (.ok, program') ∧
      Doubled program'.capacity ∧ program'.count = program.count + 1 := by
  unfold waiProgramPush
  split
  · next hfull =>
    rw [hfull] at hcount
    -- doubling stays below the limits as long as the count does
    have hgrown : Doubled (grownCapacity program.capacity) ∧
        grownCapacity program.capacity ≤ 2 ^ 60 := by
      rcases hcapacity with h0 | ⟨k, hk⟩
      · rw [h0]
        exact ⟨.inr ⟨0, rfl⟩, by decide⟩
      · have hpos : 2 ^ (k + 4) ≠ 0 := (Nat.two_pow_pos _).ne'
        have hdouble : grownCapacity (2 ^ (k + 4)) = 2 ^ (k + 1 + 4) := by
          rw [grownCapacity, if_neg hpos, ← Nat.pow_succ]
        rw [hk] at hcount ⊢
        rw [hdouble]
        have hexp : k + 4 < 60 := (Nat.pow_lt_pow_iff_right (by decide)).mp hcount
        exact ⟨.inr ⟨k + 1, rfl⟩, Nat.pow_le_pow_right (by decide) (by omega)⟩
    have hmax : ¬ grownCapacity program.capacity > maxInstructions :=
      Nat.not_lt.mpr (Nat.le_trans hgrown.2 (by decide))
    have hhalf : ¬ program.capacity > sizeMax / 2 :=
      Nat.not_lt.mpr (Nat.le_trans hcount.le (by decide))
    rw [if_neg hhalf, dif_neg hmax, h, Bool.not_true, if_neg Bool.false_ne_true]
    exact ⟨_, rfl, hgrown.1, rfl⟩
  · exact ⟨_, rfl, hcapacity, rfl⟩

theorem roomFor_granted {allocates : Nat → Bool} (h : ∀ n, allocates n = true)
    (count capacity : Nat) : roomFor allocates count capacity ≠ none := by
  unfold roomFor
  rw [h, if_pos rfl]
  split <;> exact Option.some_ne_none _

theorem enterTarget_granted (lineNumber : Nat) (h : alloc.Grants) (table : LabelTable) (count : Nat)
    (target : Option Text) : ∃ table', enterTarget alloc table count lineNumber target = .ok table' := by
  cases target with
  | none => exact ⟨table, rfl⟩
  | some name =>
    rw [enterTarget, pendingAdd]
    split
    · next hroom => exact absurd hroom (roomFor_granted h.pending _ _)
    · exact ⟨_, rfl⟩

/-- When memory is granted, a line adds at most one instruction and fails for no want of it. -/
theorem addItem_granted (lineNumber : Nat) (h : alloc.Grants) (hcapacity : Doubled state.program.capacity)
    (hcount : state.program.count < 2 ^ 60) (item : Item) :
    addItem alloc state lineNumber item ≠ .error .errOom ∧
      ∀ state', addItem alloc state lineNumber item = .ok state' →
        Doubled state'.program.capacity ∧ state'.program.count ≤ state.program.count + 1 := by
  cases item with
  | label name =>
    rw [addItem, labelAdd]
    split
    · next hadd =>
      split at hadd
      · cases hadd
        exact ⟨by simp, fun _ h => by cases h⟩
      · split at hadd
        · next hroom => exact absurd hroom (roomFor_granted h.labels _ _)
        · cases hadd
    · refine ⟨by simp, fun state' h => ?_⟩
      cases h
      exact ⟨hcapacity, Nat.le_succ _⟩
  | instruction instr target =>
    obtain ⟨table, htable⟩ :=
      enterTarget_granted lineNumber h state.table state.program.count target
    obtain ⟨program, hpush, hcapacity', hcount'⟩ := push_granted instr h.code hcapacity hcount
    rw [addItem, htable]
    simp only [hpush]
    refine ⟨by simp, fun state' h => ?_⟩
    cases h
    exact ⟨hcapacity', hcount'.le⟩

theorem assembleLines_granted {rawLines : List Text} {result : WaiAssemblerResult}
    (h : alloc.Grants) (hcapacity : Doubled state.program.capacity)
    (hcount : state.program.count + rawLines.length ≤ 2 ^ 60)
    (hrun : assembleLines alloc lineNumber state rawLines = .error result) :
    result.error ≠ .errOom := by
  induction rawLines generalizing lineNumber state with
  | nil => cases hrun
  | cons rawLine rest ih =>
    rw [List.length_cons] at hcount
    rw [assembleLines] at hrun
    rcases assembleLine_cases alloc state (lineNumber + 1) rawLine with
      ⟨_, hsame⟩ | ⟨item, _, hadd⟩ | ⟨_, _, hbad⟩
    · rw [hsame] at hrun
      exact ih hcapacity (Nat.le_trans (Nat.add_le_add_left (Nat.le_succ _) _) hcount) hrun
    · have hroom : state.program.count < 2 ^ 60 :=
        Nat.lt_of_lt_of_le (Nat.lt_add_of_pos_right (Nat.succ_pos _)) hcount
      obtain ⟨hgranted, hnext⟩ := addItem_granted (lineNumber + 1) h hcapacity hroom item
      cases hline : assembleLine alloc state (lineNumber + 1) rawLine with
      | ok next =>
        rw [hline] at hadd hrun
        obtain ⟨hcapacity', hcount'⟩ := hnext next hadd.symm
        exact ih hcapacity' (by omega) hrun
      | error result =>
        rw [hline] at hadd hrun
        cases hrun
        intro herror
        exact hgranted (hadd.symm.trans (congrArg Except.error herror))
    · cases hline : assembleLine alloc state (lineNumber + 1) rawLine with
      | ok next =>
        rw [hline] at hbad
        cases hbad
      | error result =>
        rw [hline] at hbad hrun
        cases hrun
        have herror : result.error = .errParse := Except.error.inj hbad
        rw [herror]
        decide

/-- When memory is granted, no source of up to `2 ^ 60 - 1` characters is refused for want of it. -/
theorem not_oom (h : alloc.Grants) {source : Text} (hlength : source.length < 2 ^ 60) :
    (waiAssembleSource alloc source).1.error ≠ .errOom := by
  unfold waiAssembleSource
  rw [h.copy, Bool.not_true, if_neg Bool.false_ne_true]
  split
  · next hrun =>
    refine assembleLines_granted h (.inl rfl) ?_ hrun
    exact Nat.le_trans (Nat.zero_add _).le (Nat.le_trans (length_pieces_le source) hlength)
  · split
    · next hresolve =>
      rw [resolvePending_error hresolve]
      decide
    · exact fun h => by cases h

/-! What succeeds with some memory succeeds in the same way when all memory is granted. -/

theorem roomFor_of_grants {allocates allocates' : Nat → Bool} {count capacity room : Nat}
    (h : ∀ n, allocates' n = true) (hroom : roomFor allocates count capacity = some room) :
    roomFor allocates' count capacity = some room := by
  unfold roomFor at hroom ⊢
  rw [h, if_pos rfl]
  split at hroom
  · next hfull =>
    rw [if_pos hfull]
    split at hroom
    · exact hroom
    · cases hroom
  · next hfull =>
    rw [if_neg hfull]
    exact hroom

theorem labelAdd_of_grants {allocates allocates' : Nat → Bool} {table table' : LabelTable}
    {name : Text} {target : Nat} (h : ∀ n, allocates' n = true)
    (hadd : labelAdd allocates table name target = .ok table') :
    labelAdd allocates' table name target = .ok table' := by
  unfold labelAdd at hadd ⊢
  split at hadd
  · cases hadd
  · next hfind =>
    split at hadd
    · cases hadd
    · next capacity hroom =>
      have hroom' := roomFor_of_grants h hroom
      split
      · next hnone => cases hnone.symm.trans hroom'
      · next capacity' hsome =>
        cases hsome.symm.trans hroom'
        exact hadd

theorem pendingAdd_of_grants {allocates allocates' : Nat → Bool} {table table' : LabelTable}
    {index line : Nat} {name : Text} (h : ∀ n, allocates' n = true)
    (hadd : pendingAdd allocates table index name line = .ok table') :
    pendingAdd allocates' table index name line = .ok table' := by
  unfold pendingAdd at hadd ⊢
  split at hadd
  · cases hadd
  · next capacity hroom =>
    have hroom' := roomFor_of_grants h hroom
    split
    · next hnone => cases hnone.symm.trans hroom'
    · next capacity' hsome =>
      cases hsome.symm.trans hroom'
      exact hadd

theorem push_of_grants {allocates allocates' : Nat → Bool} {program program' : OwnedProgram}
    {instr : WaiInstruction} (h : ∀ n, allocates' n = true)
    (hpush : waiProgramPush allocates program instr = (.ok, program')) :
    waiProgramPush allocates' program instr = (.ok, program') := by
  unfold waiProgramPush at hpush ⊢
  split at hpush
  · next hfull =>
    rw [dif_pos hfull]
    split at hpush
    · cases hpush
    · next hhalf =>
      rw [if_neg hhalf]
      split at hpush
      · cases hpush
      · next hmax =>
        rw [dif_neg hmax, h, Bool.not_true, if_neg Bool.false_ne_true]
        split at hpush
        · cases hpush
        · exact hpush
  · next hfull =>
    rw [dif_neg hfull]
    exact hpush

theorem addItem_of_grants {alloc' : AssemblerAlloc} {state' : AssemblyState} {item : Item}
    (h : alloc'.Grants) (hadd : addItem alloc state lineNumber item = .ok state') :
    addItem alloc' state lineNumber item = .ok state' := by
  cases item with
  | label name =>
    rw [addItem] at hadd ⊢
    split at hadd
    · cases hadd
    · next table hlabel =>
      rw [labelAdd_of_grants h.labels hlabel]
      exact hadd
  | instruction instr target =>
    have htarget : ∀ table, enterTarget alloc state.table state.program.count lineNumber target =
        .ok table → enterTarget alloc' state.table state.program.count lineNumber target =
        .ok table := by
      intro table htable
      cases target with
      | none => exact htable
      | some name => exact pendingAdd_of_grants h.pending htable
    rw [addItem] at hadd ⊢
    split at hadd
    · cases hadd
    · next table htable =>
      rw [htarget table htable]
      split at hadd
      · next program hpush =>
        simp only [push_of_grants h.code hpush]
        exact hadd
      · cases hadd

theorem assembleLines_of_grants {alloc' : AssemblerAlloc} {state' : AssemblyState}
    {rawLines : List Text} (h : alloc'.Grants)
    (hrun : assembleLines alloc lineNumber state rawLines = .ok state') :
    assembleLines alloc' lineNumber state rawLines = .ok state' := by
  induction rawLines generalizing lineNumber state with
  | nil => exact hrun
  | cons rawLine rest ih =>
    rw [assembleLines] at hrun ⊢
    cases hline : assembleLine alloc state (lineNumber + 1) rawLine with
    | error result =>
      rw [hline] at hrun
      cases hrun
    | ok next =>
      have hline' : assembleLine alloc' state (lineNumber + 1) rawLine = .ok next := by
        rcases assembleLine_cases alloc state (lineNumber + 1) rawLine with
          ⟨hblank, hsame⟩ | ⟨item, hitem, hadd⟩ | ⟨_, _, hbad⟩
        · rw [assembleLine_blank hblank, ← hsame, hline]
        · rw [hline] at hadd
          have hadd' : (assembleLine alloc' state (lineNumber + 1) rawLine).mapError (·.error) =
              addItem alloc' state (lineNumber + 1) item := assembleLine_item hitem
          rw [addItem_of_grants h hadd.symm] at hadd'
          cases hline' : assembleLine alloc' state (lineNumber + 1) rawLine with
          | error result =>
            rw [hline'] at hadd'
            cases hadd'
          | ok next' =>
            rw [hline'] at hadd'
            exact congrArg Except.ok (Except.ok.inj hadd')
        · rw [hline] at hbad
          cases hbad
      rw [hline] at hrun
      rw [hline']
      exact ih hrun

/-- A source that was assembled is assembled to the same program when memory is granted. -/
theorem assembleSource_of_grants {alloc' : AssemblerAlloc} {source : Text} (h : alloc'.Grants)
    (hok : (waiAssembleSource alloc source).1.error = .ok) :
    waiAssembleSource alloc' source = waiAssembleSource alloc source := by
  unfold waiAssembleSource at hok ⊢
  rw [h.copy, Bool.not_true, if_neg Bool.false_ne_true]
  split at hok
  · cases hok
  · next hcopy =>
    rw [if_neg hcopy]
    split at hok
    · next result hrun =>
      rcases assembleLines_error represents_zero hrun with herror | herror
      · cases herror.symm.trans hok
      · cases herror.symm.trans hok
    · next state hrun => rw [assembleLines_of_grants h hrun]

end Grants

/-! ## One pass and two passes -/

/-- `wai_assemble_source` accepts a source exactly when every line of it is blank, defines
a new label or holds an instruction, and every label that is referred to is defined. The
program is then the translation of the instruction lines in their order. A failed
allocation is what the assembler reports as `WAI_ERR_OOM`. -/
theorem assembler_refines_reference (alloc : AssemblerAlloc) (source : Text)
    (hfit : LabelNamesFit source) (halloc : (waiAssembleSource alloc source).1.error ≠ .errOom) :
    ((waiAssembleSource alloc source).1.error = .ok ↔
      ∃ items, ReadsAs (sourceLines source) items ∧ LabelsDefined items) ∧
    ∀ items, (waiAssembleSource alloc source).1.error = .ok → ReadsAs (sourceLines source) items →
      (waiAssembleSource alloc source).2.instructions = translate items := by
  refine ⟨⟨fun h => ?_, ?_⟩, fun items h hreads => ?_⟩
  · obtain ⟨items, hreads, haccepts, _⟩ := assembled_items h
    exact ⟨items, hreads, (tableAccepts_iff hfit hreads).mp haccepts⟩
  · rintro ⟨items, hreads, hdefined⟩
    have haccepts := (tableAccepts_iff hfit hreads).mpr hdefined
    exact (assembles_of_items hreads haccepts).resolve_right halloc
  · obtain ⟨items', hreads', _, hprogram⟩ := assembled_items h
    obtain rfl := readsAs_unique hreads hreads'
    rw [hprogram, translate]
    refine List.map_congr_left fun line hline => ?_
    obtain ⟨instr, target⟩ := line
    cases target with
    | none => rfl
    | some name =>
      rw [linkLine, linkLine, sharedTarget_eq hfit hreads (mem_references_iff.mpr ⟨instr, hline⟩)]

/-- Memory that never runs out. -/
def AssemblerAlloc.unlimited : AssemblerAlloc where
  buffer := true
  copy := true
  labels := fun _ => true
  pending := fun _ => true
  code := fun _ => true

theorem AssemblerAlloc.unlimited_grants : AssemblerAlloc.unlimited.Grants :=
  ⟨rfl, rfl, fun _ => rfl, fun _ => rfl, fun _ => rfl⟩

/-- `nop`, the label `a` and a jump back to it. -/
def loopSource : Text :=
  ['n', 'o', 'p', '\n', 'a', ' ', ':', '\n', 'j', 'm', 'p', ' ', 'a', '\n']

theorem assembler_refines_reference_loop :
    (waiAssembleSource .unlimited loopSource).1.error = .ok ∧
    ∃ items, ReadsAs (sourceLines loopSource) items ∧ LabelsDefined items ∧
      (waiAssembleSource .unlimited loopSource).2.instructions = translate items := by
  have hfit : LabelNamesFit loopSource := labelNamesFit_of_short (by decide)
  have halloc : (waiAssembleSource .unlimited loopSource).1.error ≠ .errOom :=
    not_oom AssemblerAlloc.unlimited_grants (by decide)
  have hok : (waiAssembleSource .unlimited loopSource).1.error = .ok := by decide
  have hrefines := assembler_refines_reference .unlimited loopSource hfit halloc
  obtain ⟨items, hreads, hdefined⟩ := hrefines.1.mp hok
  exact ⟨hok, items, hreads, hdefined, hrefines.2 items hok hreads⟩

/-! ## Names of any length -/

/-- The labels of a source have unique names, and every jump of the program goes to the
instruction behind the definition of exactly the label that it names. -/
structure LabelsExact (items : List Item) (program : List WaiInstruction) : Prop where
  nodup : (labelNames items).Nodup
  resolved : ∀ (i : Nat) (instr : WaiInstruction) (name : Text),
    (instructionLines items)[i]? = some (instr, some name) → name ∈ labelNames items ∧
      (program[i]?).map WaiInstruction.imm = some (BitVec.ofNat 64 (labelTarget items name))

/-- No name of more than 63 characters is defined twice, and whatever is referred to is
defined, with no instruction between the first label that shares its first 63 characters
and its definition. -/
structure LongNamesHarmless (items : List Item) : Prop where
  defined_once : ∀ name ∈ labelNames items, 63 < name.length → (labelNames items).count name = 1
  target : ∀ name ∈ references items, name ∈ labelNames items ∧
    instructionsBefore (fun label => label.take 63 = name.take 63) items = labelTarget items name

section Exact
variable {alloc : AssemblerAlloc} {source : Text} {items : List Item}

/-- The table refuses a second definition of every name that it can store. -/
theorem nodup_iff (h : (labelNames items).Pairwise fun earlier later => storedName earlier ≠ later) :
    (labelNames items).Nodup ↔
      ∀ name ∈ labelNames items, 63 < name.length → (labelNames items).count name = 1 := by
  constructor
  · intro hnodup name hname _
    exact List.count_eq_one_of_mem hnodup hname
  · intro hlong
    rw [List.nodup_iff_sublist]
    intro name hsub
    have hne := (List.pairwise_pair.mp (h.sublist hsub))
    have hlength : 63 < name.length := by
      by_contra hshort
      exact hne (storedName_of_fit (Nat.not_lt.mp hshort))
    have hcount := hsub.count_le name
    rw [hlong name (hsub.subset List.mem_cons_self) hlength] at hcount
    simp at hcount

/-- The jumps of an accepted source are exact exactly when its long names are harmless. -/
theorem labels_exact_iff (h : (waiAssembleSource alloc source).1.error = .ok) :
    ∃ items, ReadsAs (sourceLines source) items ∧
      (LabelsExact items (waiAssembleSource alloc source).2.instructions ↔
        LongNamesHarmless items) := by
  obtain ⟨items, hreads, haccepts, hprogram⟩ := assembled_items h
  refine ⟨items, hreads, ?_⟩
  have hlength : (instructionLines items).length ≤ maxInstructions := by
    have hle := (waiAssembleSource alloc source).2.length_le
    rwa [hprogram, List.length_map] at hle
  have himm : ∀ (i : Nat) (instr : WaiInstruction) (name : Text),
      (instructionLines items)[i]? = some (instr, some name) →
      ((waiAssembleSource alloc source).2.instructions[i]?).map WaiInstruction.imm =
        some (BitVec.ofNat 64 (sharedTarget items name)) := by
    intro i instr name hi
    rw [hprogram, List.getElem?_map, hi]
    rfl
  have hinj : ∀ isName isName' : Text → Bool,
      BitVec.ofNat 64 (instructionsBefore isName items) =
        BitVec.ofNat 64 (instructionsBefore isName' items) →
      instructionsBefore isName items = instructionsBefore isName' items := by
    intro isName isName' heq
    have hlt : ∀ isName, instructionsBefore isName items < 2 ^ 64 := fun isName =>
      Nat.lt_of_le_of_lt (Nat.le_trans (instructionsBefore_le isName items) hlength) (by decide)
    have hnat := congrArg BitVec.toNat heq
    rwa [BitVec.toNat_ofNat, BitVec.toNat_ofNat, Nat.mod_eq_of_lt (hlt _),
      Nat.mod_eq_of_lt (hlt _)] at hnat
  constructor
  · intro hexact
    refine ⟨(nodup_iff haccepts.distinct).mp hexact.nodup, fun name hname => ?_⟩
    obtain ⟨instr, hmem⟩ := mem_references_iff.mp hname
    obtain ⟨i, hi⟩ := List.mem_iff_getElem?.mp hmem
    obtain ⟨hdefined, hexactly⟩ := hexact.resolved i instr name hi
    rw [himm i instr name hi] at hexactly
    exact ⟨hdefined, hinj _ _ (Option.some.inj hexactly)⟩
  · intro hharmless
    refine ⟨(nodup_iff haccepts.distinct).mpr hharmless.defined_once, fun i instr name hi => ?_⟩
    have hname : name ∈ references items :=
      mem_references_iff.mpr ⟨instr, List.mem_of_getElem? hi⟩
    obtain ⟨hdefined, htarget⟩ := hharmless.target name hname
    refine ⟨hdefined, ?_⟩
    rw [himm i instr name hi, ← htarget]
    rfl

end Exact

theorem labels_exact_iff_loop :
    (waiAssembleSource .unlimited loopSource).1.error = .ok ∧
    ∃ items, ReadsAs (sourceLines loopSource) items ∧
      (LabelsExact items (waiAssembleSource .unlimited loopSource).2.instructions ↔
        LongNamesHarmless items) := by
  have hok : (waiAssembleSource .unlimited loopSource).1.error = .ok := by decide
  exact ⟨hok, labels_exact_iff hok⟩

/-- A name of 64 characters that shares all but the last with others. -/
def longName (last : Char) : Text :=
  List.replicate 63 'a' ++ [last]

/-- A jump to one long name in a text that defines another one. -/
def confusedSource : Text :=
  ['j', 'm', 'p', ' '] ++ longName 'b' ++ '\n' :: longName 'c' ++ [':', '\n']

theorem confused_reads : ReadsAs (sourceLines confusedSource)
    [.instruction (makeInstr .jmp) (some (longName 'b')), .label (longName 'c')] := by
  have hjump : LineItem (['j', 'm', 'p', ' '] ++ longName 'b')
      (.instruction (makeInstr .jmp) (some (longName 'b'))) :=
    (lineItem_of_no_colon (by decide)).mpr ⟨_, _, by decide, rfl⟩
  have hlabel : LineItem (longName 'c' ++ [':']) (.label (longName 'c')) :=
    (lineItem_of_colon fun c hc => by cases hc; rfl).mpr ⟨by decide +kernel, by decide +kernel⟩
  have hlines : sourceLines confusedSource =
      [['j', 'm', 'p', ' '] ++ longName 'b', longName 'c' ++ [':'], []] := by decide
  rw [hlines]
  exact .item hjump (.item hlabel (.blank nofun .nil))

/-- The jump is accepted although nothing defines its label. -/
theorem long_label_confused :
    (waiAssembleSource .unlimited confusedSource).1.error = .ok ∧
    ∀ items, ReadsAs (sourceLines confusedSource) items →
      ¬ LabelsExact items (waiAssembleSource .unlimited confusedSource).2.instructions := by
  refine ⟨by decide, fun items hitems hexact => ?_⟩
  obtain rfl := readsAs_unique hitems confused_reads
  have hdefined := (hexact.resolved 0 _ _ rfl).1
  revert hdefined
  decide

end Waivm
