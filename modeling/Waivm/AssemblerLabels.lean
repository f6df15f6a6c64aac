import Waivm.AssemblerLines

/-!
# The label table against the text

`Represents state items` says what the label table, the pending references and the
program hold when the lines read so far said `items`. Names are stored cut to 63
characters, so a reference finds the first definition that shares its first 63
characters with it.

Results:

1. `assembled_items`: what is known of a source that is accepted, for names of any length.
2. `assembles_of_items`: a source whose lines say something fitting is accepted, unless an
   allocation fails.
-/

namespace Waivm

open CString

/-! ## What one line does -/

/-- A jump enters its label in the list of references. -/
def enterTarget (alloc : AssemblerAlloc) (table : LabelTable) (count lineNumber : Nat) :
    Option Text → Except WaiErrorCode LabelTable
  | none => .ok table
  | some label => pendingAdd alloc.pending table count label lineNumber

/-- What a line that says `item` does to the table and the program. -/
def addItem (alloc : AssemblerAlloc) (state : AssemblyState) (lineNumber : Nat) :
    Item → Except WaiErrorCode AssemblyState
  | .label name =>
    match labelAdd alloc.labels state.table name state.program.count with
    | .error status => .error status
    | .ok table => .ok { state with table := table }
  | .instruction instr target =>
    match enterTarget alloc state.table state.program.count lineNumber target with
    | .error status => .error status
    | .ok table =>
      match waiProgramPush alloc.code state.program instr with
      | (.ok, program) => .ok { table := table, program := program }
      | (status, _) => .error status

section Line
variable {alloc : AssemblerAlloc} {state : AssemblyState} {lineNumber : Nat} {rawLine : Text}

theorem labelAdd_error {table : LabelTable} {allocates : Nat → Bool} {name : Text} {target : Nat}
    {status : WaiErrorCode} (h : labelAdd allocates table name target = .error status) :
    status = .errParse ∨ status = .errOom := by
  unfold labelAdd at h
  split at h
  · cases h
    exact .inl rfl
  · split at h
    · cases h
      exact .inr rfl
    · cases h

theorem pendingAdd_error {table : LabelTable} {allocates : Nat → Bool} {index line : Nat}
    {name : Text} {status : WaiErrorCode}
    (h : pendingAdd allocates table index name line = .error status) : status = .errOom := by
  unfold pendingAdd at h
  split at h
  · cases h
    rfl
  · cases h

theorem length_form_le {tokens : List Text} {instr : WaiInstruction} {target : Option Text}
    (h : InstructionForm tokens instr target) : tokens ≠ [] ∧ tokens.length ≤ 4 := by
  cases h <;> simp

theorem assembleLine_blank (h : ∀ c ∈ stripLine rawLine, isSeparator c = true) :
    assembleLine alloc state lineNumber rawLine = .ok state := by
  have htokens : tokenize (stripLine rawLine) 4 = some [] := by
    rw [tokenize_eq, tokensOf_eq_nil_iff.mpr h]
    rfl
  have hlast : (stripLine rawLine).getLast? ≠ some ':' := fun hlast => by
    cases h ':' (List.mem_of_getLast? hlast)
  unfold assembleLine
  simp only [← stripLine.eq_1, if_neg hlast, htokens]
  split <;> rfl

theorem assembleInstruction_item {tokens : List Text} {instr : WaiInstruction}
    {target : Option Text} (h : parseTokens tokens = some (instr, target)) :
    (assembleInstruction alloc state lineNumber tokens).mapError (·.error) =
      addItem alloc state lineNumber (.instruction instr target) := by
  have hpush (table : LabelTable) :
      Except.mapError (·.error) (match waiProgramPush alloc.code state.program instr with
        | (.ok, program) => (.ok ⟨table, program⟩ : Except WaiAssemblerResult AssemblyState)
        | (status, _) => .error (resultSet status lineNumber (waiErrorString status).toList)) =
      match waiProgramPush alloc.code state.program instr with
        | (.ok, program) => .ok ⟨table, program⟩
        | (status, _) => .error status := by
    cases hpush : waiProgramPush alloc.code state.program instr with
    | mk status program =>
      rcases push_instructions hpush with ⟨rfl, _⟩ | ⟨rfl, _⟩ <;> rfl
  rw [assembleInstruction, parseInstruction, h, addItem]
  cases target with
  | none => exact hpush state.table
  | some label =>
    rw [enterTarget]
    cases hadd : pendingAdd alloc.pending state.table state.program.count label lineNumber with
    | error status =>
      obtain rfl := pendingAdd_error hadd
      simp only [hadd]
      rfl
    | ok table =>
      simp only [hadd]
      exact hpush table

/-- A line that says something does it. -/
theorem assembleLine_item {item : Item} (h : LineItem (stripLine rawLine) item) :
    (assembleLine alloc state lineNumber rawLine).mapError (·.error) =
      addItem alloc state lineNumber item := by
  have hnonempty : stripLine rawLine ≠ [] := fun hnil =>
    not_lineItem_of_blank (fun c hc => by rw [hnil] at hc; cases hc) h
  have hhead : ∀ c ∈ (stripLine rawLine).head?, isspace c = false := fun c hc => head_trim hc
  unfold assembleLine
  simp only [← stripLine.eq_1, if_neg hnonempty]
  cases item with
  | label name =>
    have hlast : (stripLine rawLine).getLast? = some ':' := by
      generalize stripLine rawLine = line at h
      cases h
      exact List.getLast?_concat
    obtain ⟨body, hbody⟩ := List.getLast?_eq_some_iff.mp hlast
    rw [if_pos hlast, hbody, List.dropLast_concat]
    rw [hbody] at h hhead
    obtain ⟨hname, heq⟩ := (lineItem_of_colon hhead).mp h
    cases heq
    rw [assembleLabel, if_neg (by rw [hname]; decide), addItem]
    cases hadd : labelAdd alloc.labels state.table (trim body) state.program.count with
    | error status => rcases labelAdd_error hadd with rfl | rfl <;> rfl
    | ok table => rfl
  | instruction instr target =>
    have hlast : (stripLine rawLine).getLast? ≠ some ':' := by
      intro hlast
      obtain ⟨body, hbody⟩ := List.getLast?_eq_some_iff.mp hlast
      rw [hbody] at h hhead
      cases ((lineItem_of_colon hhead).mp h).2
    obtain ⟨_, _, hparse, heq⟩ := (lineItem_of_no_colon hlast).mp h
    cases heq
    have hform := (parseTokens_iff (tokensOf_free _)).mp hparse
    obtain ⟨hne, hle⟩ := length_form_le hform
    rw [if_neg hlast, tokenize_eq, if_pos hle]
    generalize htokens : tokensOf (stripLine rawLine) = tokens at hparse hne
    cases tokens with
    | nil => exact absurd rfl hne
    | cons _ _ => exact assembleInstruction_item hparse

/-- A line that says nothing although it does not consist of separators is refused. -/
theorem assembleLine_bad (hblank : ¬ ∀ c ∈ stripLine rawLine, isSeparator c = true)
    (h : ∀ item, ¬ LineItem (stripLine rawLine) item) :
    (assembleLine alloc state lineNumber rawLine).mapError (·.error) = .error .errParse := by
  have hnonempty : stripLine rawLine ≠ [] := fun hnil =>
    hblank fun c hc => by rw [hnil] at hc; cases hc
  have hhead : ∀ c ∈ (stripLine rawLine).head?, isspace c = false := fun c hc => head_trim hc
  unfold assembleLine
  simp only [← stripLine.eq_1, if_neg hnonempty]
  split
  · next hlast =>
    obtain ⟨body, hbody⟩ := List.getLast?_eq_some_iff.mp hlast
    rw [hbody] at h hhead ⊢
    rw [List.dropLast_concat, assembleLabel, if_pos]
    · rfl
    · rw [Bool.not_eq_true', Bool.eq_false_iff]
      exact fun hname => h _ ((lineItem_of_colon hhead).mpr ⟨hname, rfl⟩)
  · next hlast =>
    rw [tokenize_eq]
    split
    · rfl
    · next heq =>
      split at heq
      · exact absurd (tokensOf_eq_nil_iff.mp (Option.some.inj heq)) hblank
      · cases heq
    · next tokens _ heq =>
      split at heq
      · cases heq
        have hparse : parseTokens (tokensOf (stripLine rawLine)) = none := by
          rw [Option.eq_none_iff_forall_ne_some]
          rintro ⟨instr, target⟩ hparse
          exact h _ ((lineItem_of_no_colon hlast).mpr ⟨instr, target, hparse, rfl⟩)
        rw [assembleInstruction, parseInstruction, hparse]
        rfl
      · cases heq

end Line

/-! ## What the table and the program hold -/

/-- A name as the table stores it: its first 63 characters. -/
def storedName (name : Text) : Text :=
  snprintf labelNameSize name

/-- The definitions of labels, each with the number of instructions before it, when
`count` instructions stand before the items. -/
def definitions (count : Nat) : List Item → List (Text × Nat)
  | [] => []
  | .label name :: rest => (name, count) :: definitions count rest
  | .instruction _ _ :: rest => definitions (count + 1) rest

/-- The references to labels, each with the index of its instruction. -/
def uses (count : Nat) : List Item → List (Nat × Text)
  | [] => []
  | .label _ :: rest => uses count rest
  | .instruction _ none :: rest => uses (count + 1) rest
  | .instruction _ (some name) :: rest => (count, name) :: uses (count + 1) rest

/-- The state of the loop when the lines read so far say `items`. -/
structure Represents (state : AssemblyState) (items : List Item) : Prop where
  labels : state.table.labels.map (fun label => (label.name, label.target)) =
    (definitions 0 items).map fun label => (storedName label.1, label.2)
  pending : state.table.pending.map (fun ref => (ref.instructionIndex, ref.name)) =
    (uses 0 items).map fun use => (use.1, storedName use.2)
  instructions : state.program.instructions = (instructionLines items).map Prod.fst
  distinct : (labelNames items).Pairwise fun earlier later => storedName earlier ≠ later

section Items
variable (items : List Item)

theorem instructionLines_append (items' : List Item) :
    instructionLines (items ++ items') = instructionLines items ++ instructionLines items' :=
  List.filterMap_append

theorem labelNames_append (items' : List Item) :
    labelNames (items ++ items') = labelNames items ++ labelNames items' :=
  List.filterMap_append

theorem definitions_append (count : Nat) (items' : List Item) :
    definitions count (items ++ items') =
      definitions count items ++ definitions (count + (instructionLines items).length) items' := by
  induction items generalizing count with
  | nil => rfl
  | cons item rest ih =>
    cases item with
    | label name => exact congrArg ((name, count) :: ·) (ih count)
    | instruction instr target =>
      have h := ih (count + 1)
      rwa [Nat.add_assoc, Nat.add_comm 1] at h

theorem uses_append (count : Nat) (items' : List Item) :
    uses count (items ++ items') =
      uses count items ++ uses (count + (instructionLines items).length) items' := by
  induction items generalizing count with
  | nil => rfl
  | cons item rest ih =>
    have hsucc := ih (count + 1)
    rw [Nat.add_assoc, Nat.add_comm 1] at hsucc
    cases item with
    | label name => exact ih count
    | instruction instr target =>
      cases target with
      | none => exact hsucc
      | some name => exact congrArg ((count, name) :: ·) hsucc

theorem uses_names (count : Nat) : (uses count items).map Prod.snd = references items := by
  induction items generalizing count with
  | nil => rfl
  | cons item rest ih =>
    cases item with
    | label name => exact ih count
    | instruction instr target =>
      cases target with
      | none => exact ih (count + 1)
      | some name => exact congrArg (name :: ·) (ih (count + 1))

theorem instructionsBefore_label (isName : Text → Bool) (name : Text) :
    instructionsBefore isName (.label name :: items) =
      if isName name then 0 else instructionsBefore isName items := by
  cases hname : isName name with
  | true =>
    rw [instructionsBefore, List.takeWhile_cons_of_neg (by simp [hname])]
    rfl
  | false =>
    rw [instructionsBefore, List.takeWhile_cons_of_pos (by simp [hname])]
    rfl

theorem instructionsBefore_instruction (isName : Text → Bool) (instr : WaiInstruction)
    (target : Option Text) :
    instructionsBefore isName (.instruction instr target :: items) =
      instructionsBefore isName items + 1 := by
  rw [instructionsBefore, List.takeWhile_cons_of_pos rfl]
  rfl

/-- The first definition whose name a predicate holds of. -/
theorem find_definitions (isName : Text → Bool) (count : Nat) :
    ((definitions count items).find? fun label => isName label.1).map Prod.snd =
      if (labelNames items).any isName then some (count + instructionsBefore isName items)
      else none := by
  induction items generalizing count with
  | nil => rfl
  | cons item rest ih =>
    cases item with
    | label name =>
      have hany : (labelNames (.label name :: rest)).any isName =
          (isName name || (labelNames rest).any isName) := rfl
      rw [definitions, List.find?_cons, hany, instructionsBefore_label]
      cases hname : isName name with
      | true => rfl
      | false =>
        rw [Bool.false_or]
        exact ih count
    | instruction instr target =>
      rw [instructionsBefore_instruction, definitions, ih, Nat.add_right_comm, Nat.add_assoc]
      rfl

end Items

section Find
variable {state : AssemblyState} {items : List Item}

/-- `label_find` finds the first definition whose stored name is the one it is given. -/
theorem labelFind_eq (h : Represents state items) (name : Text) :
    labelFind state.table.labels name =
      if (labelNames items).any fun label => storedName label = name then
        some (instructionsBefore (fun label => storedName label = name) items)
      else none := by
  have hfind := find_definitions items (fun label => storedName label = name) 0
  rw [Nat.zero_add] at hfind
  have hstored := congrArg (fun labels => (labels.find? (·.1 = name)).map Prod.snd) h.labels
  simp only [List.find?_map, Option.map_map, Function.comp_def] at hstored
  rw [← hfind, labelFind]
  exact hstored

/-- The count of a program is the index of the next instruction. -/
theorem Represents.count_eq (h : Represents state items) :
    state.program.count = (instructionLines items).length := by
  rw [state.program.count_eq_length, h.instructions, List.length_map]

theorem labelFind_eq_none_iff (h : Represents state items) (name : Text) :
    labelFind state.table.labels name = none ↔
      ∀ earlier ∈ labelNames items, storedName earlier ≠ name := by
  rw [labelFind_eq h]
  simp only [ite_eq_right_iff, reduceCtorEq, imp_false, List.any_eq_true, decide_eq_true_eq,
    not_exists, not_and, ne_eq]

end Find

/-! ## One line -/

theorem labelAdd_ok {allocates : Nat → Bool} {table table' : LabelTable} {name : Text} {target : Nat}
    (h : labelAdd allocates table name target = .ok table') :
    labelFind table.labels name = none ∧
      table'.labels.map (fun label => (label.name, label.target)) =
        table.labels.map (fun label => (label.name, label.target)) ++ [(storedName name, target)] ∧
      table'.pending = table.pending := by
  unfold labelAdd at h
  split at h
  · cases h
  · next hfind =>
    split at h
    · cases h
    · cases h
      exact ⟨hfind, List.map_append, rfl⟩

theorem pendingAdd_ok {allocates : Nat → Bool} {table table' : LabelTable} {index line : Nat}
    {name : Text} (h : pendingAdd allocates table index name line = .ok table') :
    table'.labels = table.labels ∧
      table'.pending.map (fun ref => (ref.instructionIndex, ref.name)) =
        table.pending.map (fun ref => (ref.instructionIndex, ref.name)) ++
          [(index, storedName name)] := by
  unfold pendingAdd at h
  split at h
  · cases h
  · cases h
    exact ⟨rfl, List.map_append⟩

section Step
variable {alloc : AssemblerAlloc} {state state' : AssemblyState} {lineNumber : Nat}
  {done : List Item} {item : Item}

theorem labels_append_instruction (done : List Item) (instr : WaiInstruction) (target : Option Text) :
    labelNames (done ++ [.instruction instr target]) = labelNames done ∧
      definitions 0 (done ++ [.instruction instr target]) = definitions 0 done := by
  rw [labelNames_append, definitions_append]
  exact ⟨List.append_nil _, List.append_nil _⟩

/-- The row of a new label is that of its definition; nothing else changes. -/
theorem represents_label {table : LabelTable} {name : Text} (h : Represents state done)
    (hlabel : labelAdd alloc.labels state.table name state.program.count = .ok table) :
    Represents { state with table := table } (done ++ [.label name]) := by
  obtain ⟨hfind, hlabels, hpending⟩ := labelAdd_ok hlabel
  rw [labelFind_eq_none_iff h] at hfind
  refine ⟨?_, ?_, ?_, ?_⟩
  · rw [hlabels, h.labels, h.count_eq, definitions_append, List.map_append, Nat.zero_add]
    rfl
  · rw [hpending, h.pending, uses_append]
    exact congrArg _ (List.append_nil _).symm
  · rw [h.instructions, instructionLines_append]
    exact congrArg _ (List.append_nil _).symm
  · rw [labelNames_append, List.pairwise_append]
    refine ⟨h.distinct, List.pairwise_singleton _ _, fun earlier hearlier later hlater => ?_⟩
    rw [List.mem_singleton.mp hlater]
    exact hfind earlier hearlier

/-- A jump leaves an entry with the index that its instruction gets, a plain line none. -/
theorem enterTarget_ok {table table' : LabelTable} {index : Nat} {target : Option Text}
    (instr : WaiInstruction) (h : enterTarget alloc table index lineNumber target = .ok table') :
    table'.labels = table.labels ∧
      table'.pending.map (fun ref => (ref.instructionIndex, ref.name)) =
        table.pending.map (fun ref => (ref.instructionIndex, ref.name)) ++
          (uses index [.instruction instr target]).map fun use => (use.1, storedName use.2) := by
  cases target with
  | none =>
    cases h
    exact ⟨rfl, (List.append_nil _).symm⟩
  | some name => exact pendingAdd_ok h

/-- A new instruction is the last one of the program. -/
theorem represents_instruction {table : LabelTable} {program : OwnedProgram}
    {instr : WaiInstruction} {target : Option Text} (h : Represents state done)
    (htarget : enterTarget alloc state.table state.program.count lineNumber target = .ok table)
    (hpush : waiProgramPush alloc.code state.program instr = (.ok, program)) :
    Represents { table := table, program := program } (done ++ [.instruction instr target]) := by
  obtain ⟨hnames, hdefinitions⟩ := labels_append_instruction done instr target
  obtain ⟨hlabels, hpending⟩ := enterTarget_ok instr htarget
  have hinstructions : program.instructions = state.program.instructions ++ [instr] := by
    rcases push_instructions hpush with ⟨hstatus, _⟩ | ⟨_, hprogram⟩
    · cases hstatus
    · exact hprogram
  refine ⟨?_, ?_, ?_, ?_⟩
  · rw [hlabels, h.labels, hdefinitions]
  · rw [hpending, h.pending, h.count_eq, uses_append, List.map_append, Nat.zero_add]
  · rw [hinstructions, h.instructions, instructionLines_append, List.map_append]
    rfl
  · rw [hnames]
    exact h.distinct

/-- A line keeps the invariant. -/
theorem addItem_ok (h : Represents state done)
    (hadd : addItem alloc state lineNumber item = .ok state') :
    Represents state' (done ++ [item]) := by
  cases item with
  | label name =>
    rw [addItem] at hadd
    split at hadd
    · cases hadd
    · next table hlabel =>
      cases hadd
      exact represents_label h hlabel
  | instruction instr target =>
    rw [addItem] at hadd
    split at hadd
    · cases hadd
    · next table htarget =>
      split at hadd
      · next program hpush =>
        cases hadd
        exact represents_instruction h htarget hpush
      · cases hadd

/-- A line that says something is refused for want of memory, or because it defines a
label whose name is in the table. -/
theorem addItem_error {status : WaiErrorCode} (h : Represents state done)
    (hadd : addItem alloc state lineNumber item = .error status) :
    status = .errOom ∨ (status = .errParse ∧
      ¬ (labelNames (done ++ [item])).Pairwise fun earlier later => storedName earlier ≠ later) := by
  cases item with
  | label name =>
    rw [addItem] at hadd
    split at hadd
    · next hlabel =>
      cases hadd
      unfold labelAdd at hlabel
      split at hlabel
      · -- `label_find` found the name, so an earlier definition is stored under it
        next target hfind =>
        cases hlabel
        refine .inr ⟨rfl, fun hdistinct => ?_⟩
        rw [labelNames_append, List.pairwise_append] at hdistinct
        have hnone := (labelFind_eq_none_iff h name).mpr fun earlier hearlier =>
          hdistinct.2.2 earlier hearlier name List.mem_cons_self
        rw [hfind] at hnone
        cases hnone
      · split at hlabel
        · cases hlabel
          exact .inl rfl
        · cases hlabel
    · cases hadd
  | instruction instr target =>
    rw [addItem] at hadd
    split at hadd
    · next htarget =>
      cases hadd
      cases target with
      | none => cases htarget
      | some name => exact .inl (pendingAdd_error htarget)
    · split at hadd
      · cases hadd
      · next hfailed hpush =>
        cases hadd
        rcases push_instructions hpush with ⟨hstatus, _⟩ | ⟨hstatus, _⟩
        · exact .inl hstatus
        · exact absurd hstatus hfailed

end Step

/-! ## All lines -/

section Run
variable {alloc : AssemblerAlloc} {state state' : AssemblyState} {lineNumber : Nat}
  {rawLine : Text} {rawLines : List Text} {done items : List Item}

theorem represents_zero : Represents ⟨.zero, waiProgramInit⟩ [] :=
  ⟨rfl, rfl, rfl, .nil⟩

/-- What a line does: nothing when it is blank, what its item does, or it is refused. -/
theorem assembleLine_cases (alloc : AssemblerAlloc) (state : AssemblyState) (lineNumber : Nat)
    (rawLine : Text) :
    ((∀ c ∈ stripLine rawLine, isSeparator c = true) ∧
      assembleLine alloc state lineNumber rawLine = .ok state) ∨
    (∃ item, LineItem (stripLine rawLine) item ∧
      (assembleLine alloc state lineNumber rawLine).mapError (·.error) =
        addItem alloc state lineNumber item) ∨
    ((¬ ∀ c ∈ stripLine rawLine, isSeparator c = true) ∧
      (∀ item, ¬ LineItem (stripLine rawLine) item) ∧
      (assembleLine alloc state lineNumber rawLine).mapError (·.error) = .error .errParse) := by
  by_cases hblank : ∀ c ∈ stripLine rawLine, isSeparator c = true
  · exact .inl ⟨hblank, assembleLine_blank hblank⟩
  · by_cases hitem : ∃ item, LineItem (stripLine rawLine) item
    · obtain ⟨item, hitem⟩ := hitem
      exact .inr (.inl ⟨item, hitem, assembleLine_item hitem⟩)
    · rw [not_exists] at hitem
      exact .inr (.inr ⟨hblank, hitem, assembleLine_bad hblank hitem⟩)

/-- The lines that the loop accepts say something that the state represents. -/
theorem assembleLines_ok (h : Represents state done)
    (hrun : assembleLines alloc lineNumber state rawLines = .ok state') :
    ∃ items, ReadsAs (rawLines.map stripLine) items ∧ Represents state' (done ++ items) := by
  induction rawLines generalizing lineNumber state done with
  | nil =>
    cases hrun
    exact ⟨[], .nil, by rwa [List.append_nil]⟩
  | cons rawLine rest ih =>
    rw [assembleLines] at hrun
    split at hrun
    · cases hrun
    · next next hline =>
      rcases assembleLine_cases alloc state (lineNumber + 1) rawLine with
        ⟨hblank, hsame⟩ | ⟨item, hitem, hadd⟩ | ⟨_, _, hbad⟩
      · rw [hline] at hsame
        cases hsame
        obtain ⟨items, hreads, hrep⟩ := ih h hrun
        exact ⟨items, .blank hblank hreads, hrep⟩
      · rw [hline] at hadd
        obtain ⟨items, hreads, hrep⟩ := ih (addItem_ok h hadd.symm) hrun
        rw [List.append_assoc] at hrep
        exact ⟨item :: items, .item hitem hreads, hrep⟩
      · rw [hline] at hbad
        cases hbad

/-- The loop accepts lines that say something without a label that the table has
already, unless it runs out of memory. -/
theorem assembleLines_of_items (alloc : AssemblerAlloc) (lineNumber : Nat)
    (h : Represents state done)
    (hreads : ReadsAs (rawLines.map stripLine) items)
    (hdistinct : (labelNames (done ++ items)).Pairwise fun earlier later =>
      storedName earlier ≠ later) :
    (∃ state', assembleLines alloc lineNumber state rawLines = .ok state') ∨
    ∃ result, assembleLines alloc lineNumber state rawLines = .error result ∧
      result.error = .errOom := by
  induction rawLines generalizing lineNumber state done items with
  | nil => exact .inl ⟨state, rfl⟩
  | cons rawLine rest ih =>
    rw [List.map_cons] at hreads
    cases hreads with
    | blank hblank hrest =>
      rw [assembleLines, assembleLine_blank hblank]
      exact ih _ h hrest hdistinct
    | @item _ _ item items hitem hrest =>
      have hadd : (assembleLine alloc state (lineNumber + 1) rawLine).mapError (·.error) =
          addItem alloc state (lineNumber + 1) item := assembleLine_item hitem
      -- the labels up to this line are among those that are distinct
      have hsplit : done ++ item :: items = done ++ [item] ++ items := by
        rw [List.append_assoc]
        rfl
      rw [hsplit] at hdistinct
      rw [assembleLines]
      cases hline : assembleLine alloc state (lineNumber + 1) rawLine with
      | ok next =>
        rw [hline] at hadd
        exact ih _ (addItem_ok h hadd.symm) hrest hdistinct
      | error result =>
        rw [hline] at hadd
        refine .inr ⟨result, rfl, ?_⟩
        rcases addItem_error h hadd.symm with hstatus | ⟨_, hclash⟩
        · exact hstatus
        · rw [labelNames_append] at hdistinct
          exact absurd (List.pairwise_append.mp hdistinct).1 hclash

/-- A line is refused with `WAI_ERR_PARSE` or for want of memory. -/
theorem assembleLines_error {result : WaiAssemblerResult} (h : Represents state done)
    (hrun : assembleLines alloc lineNumber state rawLines = .error result) :
    result.error = .errParse ∨ result.error = .errOom := by
  induction rawLines generalizing lineNumber state done with
  | nil => cases hrun
  | cons rawLine rest ih =>
    rw [assembleLines] at hrun
    rcases assembleLine_cases alloc state (lineNumber + 1) rawLine with
      ⟨_, hsame⟩ | ⟨item, _, hadd⟩ | ⟨_, _, hbad⟩
    · rw [hsame] at hrun
      exact ih h hrun
    · cases hline : assembleLine alloc state (lineNumber + 1) rawLine with
      | ok next =>
        rw [hline] at hadd hrun
        exact ih (addItem_ok h hadd.symm) hrun
      | error result =>
        rw [hline] at hadd hrun
        cases hrun
        rcases addItem_error h hadd.symm with hstatus | ⟨hstatus, _⟩
        · exact .inr hstatus
        · exact .inl hstatus
    · cases hline : assembleLine alloc state (lineNumber + 1) rawLine with
      | ok next =>
        rw [hline] at hbad
        cases hbad
      | error result =>
        rw [hline] at hbad hrun
        cases hrun
        exact .inl (Except.error.inj hbad)

end Run

/-! ## Jump targets -/

theorem setImm_instructions {program : OwnedProgram} {before rest : List WaiInstruction}
    {instr : WaiInstruction} (h : program.instructions = before ++ instr :: rest)
    (value : WaiValue) :
    (program.setImm before.length value).instructions =
      before ++ { instr with imm := value } :: rest := by
  have hmodify (f : WaiInstruction → WaiInstruction) :
      (before ++ instr :: rest).modify before.length f = before ++ f instr :: rest := by
    clear h
    induction before with
    | nil => rfl
    | cons first before ih => exact congrArg (first :: ·) ih
  have hcode : (program.setImm before.length value).code =
      program.code.map fun code => code.modify before.length fun instr => { instr with imm := value } :=
    rfl
  rw [WaiProgram.instructions] at h ⊢
  rw [hcode]
  cases hold : program.code with
  | none =>
    rw [hold] at h
    cases before <;> cases h
  | some code =>
    rw [hold, Option.getD_some] at h
    rw [Option.map_some, Option.getD_some, h]
    exact hmodify _

section Resolve
variable {labels : List LabelDef} {program : OwnedProgram} {pending : List PendingRef}

/-- `resolve_pending` succeeds when it finds every label, and writes what it finds. -/
theorem resolvePending_of_found {target : Text → Nat} {items : List Item}
    (before : List WaiInstruction)
    (hpending : pending.map (fun ref => (ref.instructionIndex, ref.name)) =
      (uses before.length items).map fun use => (use.1, storedName use.2))
    (hprogram : program.instructions = before ++ (instructionLines items).map Prod.fst)
    (hfind : ∀ name ∈ references items,
      labelFind labels (storedName name) = some (target name) ∧ target name ≤ 2 ^ 63 - 1) :
    ∃ program', resolvePending labels program pending = .ok program' ∧
      program'.instructions = before ++ (instructionLines items).map (linkLine target) := by
  induction items generalizing program pending before with
  | nil =>
    obtain rfl := List.map_eq_nil_iff.mp hpending
    exact ⟨program, rfl, hprogram⟩
  | cons item rest ih =>
    cases item with
    | label name => exact ih before hpending hprogram hfind
    | instruction instr use =>
      have hlength (instr : WaiInstruction) : (before ++ [instr]).length = before.length + 1 :=
        List.length_append
      have happend (instr : WaiInstruction) (after : List WaiInstruction) :
          before ++ instr :: after = before ++ [instr] ++ after := by
        rw [List.append_assoc]
        rfl
      cases use with
      | none =>
        have hprogram' := hprogram.trans (happend instr _)
        obtain ⟨program', hresolve, hinstructions⟩ :=
          ih (before ++ [instr]) (by rw [hlength]; exact hpending) hprogram' hfind
        refine ⟨program', hresolve, ?_⟩
        rw [hinstructions, ← happend]
        rfl
      | some name =>
        obtain ⟨ref, pending, rfl, href, hrest⟩ := List.map_eq_cons_iff.mp hpending
        obtain ⟨hindex, hname⟩ := Prod.mk.inj href
        obtain ⟨htarget, hle⟩ := hfind name List.mem_cons_self
        have hset := setImm_instructions hprogram (BitVec.ofNat 64 (target name))
        obtain ⟨program', hresolve, hinstructions⟩ :=
          ih _ (by rw [hlength]; exact hrest) (hset.trans (happend _ _))
            fun other hother => hfind other (List.mem_cons_of_mem _ hother)
        refine ⟨program', ?_, ?_⟩
        · rw [resolvePending, hname, htarget, hindex]
          simp only
          rw [if_neg (Nat.not_lt.mpr hle)]
          exact hresolve
        · rw [hinstructions, ← happend]
          rfl

/-- `resolve_pending` succeeds only when it finds every label. -/
theorem found_of_resolved {program' : OwnedProgram}
    (h : resolvePending labels program pending = .ok program') :
    ∀ ref ∈ pending, labelFind labels ref.name ≠ none := by
  induction pending generalizing program with
  | nil => exact fun _ hmem => nomatch hmem
  | cons ref rest ih =>
    rw [resolvePending] at h
    split at h
    · cases h
    · next target hfind =>
      split at h
      · cases h
      · rw [List.forall_mem_cons]
        refine ⟨?_, ih h⟩
        rw [hfind]
        exact Option.some_ne_none _

theorem resolvePending_error {result : WaiAssemblerResult}
    (h : resolvePending labels program pending = .error result) : result.error = .errParse := by
  induction pending generalizing program with
  | nil => cases h
  | cons ref rest ih =>
    rw [resolvePending] at h
    split at h
    · cases h
      rfl
    · split at h
      · cases h
        rfl
      · exact ih h

end Resolve

/-! ## A whole text -/

/-- The number of instruction lines before the first definition whose stored name is
the stored name of a reference. -/
def sharedTarget (items : List Item) (name : Text) : Nat :=
  instructionsBefore (fun label => storedName label = storedName name) items

/-- The names are acceptable to the label table, whatever their lengths: no label is
defined whose name is stored already, and for every reference there is a definition
with its stored name. -/
structure TableAccepts (items : List Item) : Prop where
  distinct : (labelNames items).Pairwise fun earlier later => storedName earlier ≠ later
  found : ∀ name ∈ references items, ∃ label ∈ labelNames items, storedName label = storedName name

section Source
variable {alloc : AssemblerAlloc} {source : Text} {state : AssemblyState} {items : List Item}

theorem instructionsBefore_le (isName : Text → Bool) (items : List Item) :
    instructionsBefore isName items ≤ (instructionLines items).length :=
  ((List.takeWhile_prefix _).sublist.filterMap _).length_le

/-- No jump target is too large. -/
theorem target_le (h : Represents state items) (isName : Text → Bool) :
    instructionsBefore isName items ≤ 2 ^ 63 - 1 :=
  calc
    instructionsBefore isName items ≤ (instructionLines items).length := instructionsBefore_le _ _
    _ = state.program.count := h.count_eq.symm
    _ ≤ maxInstructions := state.program.count_le
    _ ≤ 2 ^ 63 - 1 := by decide

theorem readsAs_pieces_iff :
    ReadsAs ((pieces (· == '\n') source).map stripLine) items ↔ ReadsAs (sourceLines source) items := by
  rw [pieces_eq]
  exact readsAs_filter_iff

/-- The table finds every reference exactly when there are definitions for them. -/
theorem labelFind_shared (h : Represents state items) {name : Text}
    (hfound : ∃ label ∈ labelNames items, storedName label = storedName name) :
    labelFind state.table.labels (storedName name) = some (sharedTarget items name) := by
  rw [labelFind_eq h, if_pos]
  · rfl
  · obtain ⟨label, hlabel, hstored⟩ := hfound
    exact List.any_eq_true.mpr ⟨label, hlabel, decide_eq_true hstored⟩

theorem resolve_represented (h : Represents state items) (hfound : TableAccepts items) :
    ∃ program, resolvePending state.table.labels state.program state.table.pending = .ok program ∧
      program.instructions = (instructionLines items).map (linkLine (sharedTarget items)) :=
  resolvePending_of_found [] h.pending h.instructions fun name hname =>
    ⟨labelFind_shared h (hfound.found name hname), target_le h _⟩

/-- What a source says that is accepted. -/
theorem assembled_items (h : (waiAssembleSource alloc source).1.error = .ok) :
    ∃ items, ReadsAs (sourceLines source) items ∧ TableAccepts items ∧
      (waiAssembleSource alloc source).2.instructions =
        (instructionLines items).map (linkLine (sharedTarget items)) := by
  unfold waiAssembleSource at h ⊢
  split at h
  · cases h
  · next hcopy =>
    rw [if_neg hcopy]
    split at h
    · next result hrun =>
      rcases assembleLines_error represents_zero hrun with herror | herror
      · cases herror.symm.trans h
      · cases herror.symm.trans h
    · next state hrun =>
      obtain ⟨items, hreads, hrep⟩ := assembleLines_ok represents_zero hrun
      rw [List.nil_append] at hrep
      split at h
      · next result hresolve => cases (resolvePending_error hresolve).symm.trans h
      · next program hresolve =>
        have haccepts : TableAccepts items := by
          refine ⟨hrep.distinct, fun name hname => ?_⟩
          rw [← uses_names items 0, List.mem_map] at hname
          obtain ⟨use, huse, rfl⟩ := hname
          have hmem := List.mem_map_of_mem (f := fun use => (use.1, storedName use.2)) huse
          rw [← hrep.pending, List.mem_map] at hmem
          obtain ⟨ref, href, heq⟩ := hmem
          have hfind := found_of_resolved hresolve ref href
          rw [(Prod.mk.inj heq).2, Ne, labelFind_eq_none_iff hrep, not_forall] at hfind
          obtain ⟨label, hlabel⟩ := hfind
          rw [Classical.not_imp, not_not] at hlabel
          exact ⟨label, hlabel.1, hlabel.2⟩
        obtain ⟨program', hresolve', hinstructions⟩ := resolve_represented hrep haccepts
        rw [hresolve] at hresolve'
        cases hresolve'
        exact ⟨items, readsAs_pieces_iff.mp hreads, haccepts, hinstructions⟩

/-- A source that says something acceptable is assembled, unless memory runs out. -/
theorem assembles_of_items (hreads : ReadsAs (sourceLines source) items) (h : TableAccepts items) :
    (waiAssembleSource alloc source).1.error = .ok ∨
      (waiAssembleSource alloc source).1.error = .errOom := by
  unfold waiAssembleSource
  split
  · exact .inr rfl
  · rw [← readsAs_pieces_iff] at hreads
    rcases assembleLines_of_items alloc 0 represents_zero hreads h.distinct with
      ⟨state, hrun⟩ | ⟨result, hrun, herror⟩
    · obtain ⟨items', hreads', hrep⟩ := assembleLines_ok represents_zero hrun
      obtain rfl := readsAs_unique hreads hreads'
      rw [List.nil_append] at hrep
      obtain ⟨program, hresolve, _⟩ := resolve_represented hrep h
      simp only [hrun, hresolve]
      exact .inl rfl
    · simp only [hrun]
      exact .inr herror

end Source

end Waivm
