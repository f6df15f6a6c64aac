import Mathlib.Order.Bounds.Basic
import Waivm.AssemblerRefinement

/-!
# The line of an assembler error

`FirstFault stored lines n` says which line of a text is the first one with a fault.
The loop of `wai_assemble_source` stops at that line, but its counter is driven by
`strtok_r`, which hands out no empty lines.

Results:

1. `isLeast_take_filter`: the first bad prefix of a list, when some elements are left out.
2. `assembleLines_stops`: where the loop stops, and where the references stand when it
   does not.
3. `reported_line`: the reported line is that of the first fault, less the empty lines
   before it.
4. `error_line_iff`: when the reported line is the line of the fault.
-/

namespace Waivm

open CString

/-! ## The first line with a fault -/

/-- No label has the name of an earlier one. Of the earlier label, `stored` is compared. -/
def NamesDistinct (stored : Text → Text) (items : List Item) : Prop :=
  (labelNames items).Pairwise fun earlier later => stored earlier ≠ later

/-- Every line is blank or says something, and no label is defined twice. -/
def LinesFine (stored : Text → Text) (lines : List Text) : Prop :=
  ∃ items, ReadsAs lines items ∧ NamesDistinct stored items

/-- The lines refer to labels that `all` defines. -/
def ReferencesFine (stored : Text → Text) (all : List Item) (lines : List Text) : Prop :=
  ∃ items, ReadsAs lines items ∧
    ∀ name ∈ references items, ∃ label ∈ labelNames all, stored label = stored name

/-- `FirstFault stored lines n`: line `n`, counted from one, is the first line that is
malformed or defines a label again or, when there is none, the first one that refers to
a label that no line defines. For `stored = id`, the names are compared as they are
written, for `stored = storedName` as the label table compares them. -/
inductive FirstFault (stored : Text → Text) (lines : List Text) (n : Nat) : Prop
  | line (h : IsLeast {n | ¬ LinesFine stored (lines.take n)} n)
  | reference {all : List Item} (hreads : ReadsAs lines all) (hdistinct : NamesDistinct stored all)
      (h : IsLeast {n | ¬ ReferencesFine stored all (lines.take n)} n)

/-! ## Lines one after the other -/

section Reading
variable {lines lines' : List Text} {items items' : List Item}

theorem readsAs_append (h : ReadsAs lines items) (h' : ReadsAs lines' items') :
    ReadsAs (lines ++ lines') (items ++ items') := by
  induction h with
  | nil => exact h'
  | blank hblank _ ih => exact .blank hblank ih
  | item hitem _ ih => exact .item hitem ih

theorem readsAs_of_append (h : ReadsAs (lines ++ lines') items) :
    ∃ before after, items = before ++ after ∧ ReadsAs lines before ∧ ReadsAs lines' after := by
  induction lines generalizing items with
  | nil => exact ⟨[], items, rfl, .nil, h⟩
  | cons line rest ih =>
    rw [List.cons_append] at h
    cases h with
    | blank hblank hrest =>
      obtain ⟨before, after, rfl, hbefore, hafter⟩ := ih hrest
      exact ⟨before, after, rfl, .blank hblank hbefore, hafter⟩
    | @item _ _ item _ hitem hrest =>
      obtain ⟨before, after, rfl, hbefore, hafter⟩ := ih hrest
      exact ⟨item :: before, after, rfl, .item hitem hbefore, hafter⟩

/-- Lines with lines behind them that are fine are fine. -/
theorem linesFine_of_append {stored : Text → Text} (h : LinesFine stored (lines ++ lines')) :
    LinesFine stored lines := by
  obtain ⟨items, hreads, hdistinct⟩ := h
  obtain ⟨before, after, rfl, hbefore, _⟩ := readsAs_of_append hreads
  rw [NamesDistinct, labelNames_append] at hdistinct
  exact ⟨before, hbefore, (List.pairwise_append.mp hdistinct).1⟩

theorem linesFine_take {stored : Text → Text} (h : LinesFine stored lines) (n : Nat) :
    LinesFine stored (lines.take n) := by
  rw [← List.take_append_drop n lines] at h
  exact linesFine_of_append h

theorem references_append (items' : List Item) :
    references (items ++ items') = references items ++ references items' := by
  rw [references, instructionLines_append, List.filterMap_append]
  rfl

theorem referencesFine_take {stored : Text → Text} {all : List Item}
    (h : ReferencesFine stored all lines) (n : Nat) :
    ReferencesFine stored all (lines.take n) := by
  obtain ⟨items, hreads, hfound⟩ := h
  rw [← List.take_append_drop n lines] at hreads
  obtain ⟨before, after, rfl, hbefore, _⟩ := readsAs_of_append hreads
  rw [references_append] at hfound
  exact ⟨before, hbefore, fun name hname => hfound name (List.mem_append_left _ hname)⟩

end Reading

/-- A text has one first fault. -/
theorem firstFault_unique {stored : Text → Text} {rawLines : List Text} {n m : Nat}
    (h : FirstFault stored (rawLines.map stripLine) n)
    (h' : FirstFault stored (rawLines.map stripLine) m) : n = m := by
  cases h with
  | line hleast =>
    cases h' with
    | line hleast' => exact hleast.unique hleast'
    | reference hreads hdistinct _ => exact absurd (linesFine_take ⟨_, hreads, hdistinct⟩ n) hleast.1
  | reference hreads hdistinct hleast =>
    cases h' with
    | line hleast' => exact absurd (linesFine_take ⟨_, hreads, hdistinct⟩ m) hleast'.1
    | reference hreads' _ hleast' =>
      obtain rfl := readsAs_unique hreads hreads'
      exact hleast.unique hleast'

/-! ## The first bad prefix -/

section Prefix
variable {α : Type} {before after l : List α} {a : α}

/-- The first bad prefix ends with the element that makes it bad. -/
theorem isLeast_take (good : List α → Prop) (hclosed : ∀ l n, good l → good (l.take n))
    (hgood : good before) (hbad : ¬ good (before ++ [a])) :
    IsLeast {n | ¬ good ((before ++ a :: after).take n)} (before.length + 1) := by
  constructor
  · have htake : (before ++ a :: after).take (before.length + 1) = before ++ [a] := by
      rw [List.take_length_add_append, List.take_succ_cons, List.take_zero]
    rwa [Set.mem_ofPred_eq, htake]
  · intro n hn
    by_contra hlt
    refine hn ?_
    rw [List.take_append_of_le_length (Nat.lt_succ_iff.mp (Nat.not_le.mp hlt))]
    exact hclosed before n hgood

/-- An element that a filter keeps stands behind the kept elements before it and some
that are left out. -/
theorem split_of_filter {keep : α → Bool} (h : l.filter keep = before ++ a :: after) :
    ∃ before' after', l = before' ++ a :: after' ∧ before'.filter keep = before ∧
      keep a = true ∧ before'.length = before.length + (before'.filter (!keep ·)).length := by
  obtain ⟨kept, rest, rfl, hkept, hrest⟩ := List.filter_eq_append_iff.mp h
  obtain ⟨skipped, after', rfl, hskipped, hkeep, _⟩ := List.filter_eq_cons_iff.mp hrest
  have hfilter : (kept ++ skipped).filter keep = before := by
    rw [List.filter_append, hkept, List.filter_eq_nil_iff.mpr hskipped, List.append_nil]
  refine ⟨kept ++ skipped, after', (List.append_assoc _ _ _).symm, hfilter, hkeep, ?_⟩
  rw [← hfilter]
  exact List.length_eq_length_filter_add keep

end Prefix

/-! ## The loop -/

section Loop
variable {alloc : AssemblerAlloc} {state state' : AssemblyState} {lineNumber : Nat}
  {rawLine : Text} {rawLines lines : List Text} {items : List Item} {result : WaiAssemblerResult}

/-- An error of a line carries the number of the line. -/
theorem assembleLine_error_line
    (h : assembleLine alloc state lineNumber rawLine = .error result) :
    result.line = lineNumber := by
  unfold assembleLine assembleLabel assembleInstruction at h
  simp only at h
  split at h
  · cases h
  · split at h
    · split at h
      · cases h
        rfl
      · split at h
        · cases h
          rfl
        · cases h
          rfl
        · cases h
    · split at h
      · cases h
        rfl
      · cases h
      · split at h
        · cases h
          rfl
        · cases h
          rfl
        · split at h
          · cases h
          · cases h
            rfl

/-- What a line adds to the references: nothing, or the label of its jump with the number
of the line. -/
theorem addItem_pending {item : Item} (h : addItem alloc state lineNumber item = .ok state') :
    state'.table.pending = state.table.pending ∨
    ∃ instr name ref, item = .instruction instr (some name) ∧
      state'.table.pending = state.table.pending ++ [ref] ∧ ref.name = storedName name ∧
      ref.line = lineNumber := by
  cases item with
  | label name =>
    rw [addItem] at h
    split at h
    · cases h
    · next table hlabel =>
      cases h
      exact .inl (labelAdd_ok hlabel).2.2
  | instruction instr target =>
    rw [addItem] at h
    split at h
    · cases h
    · next table htarget =>
      split at h
      · cases h
        cases target with
        | none =>
          cases htarget
          exact .inl rfl
        | some name =>
          rw [enterTarget, pendingAdd] at htarget
          split at htarget
          · cases htarget
          · cases htarget
            exact .inr ⟨instr, name, _, rfl, rfl, rfl, rfl⟩
      · cases h

/-- The reference `ref`, behind the references `earlier`, was read from line `ref.line`. -/
def ReadAt (rawLines : List Text) (earlier : List PendingRef) (ref : PendingRef) : Prop :=
  ∃ before line after items instr name, rawLines = before ++ line :: after ∧
    ref.line = before.length + 1 ∧ ReadsAs (before.map stripLine) items ∧
    LineItem (stripLine line) (.instruction instr (some name)) ∧ ref.name = storedName name ∧
    earlier.map (·.name) = (references items).map storedName

theorem ReadAt.append {earlier : List PendingRef} {ref : PendingRef}
    (h : ReadAt rawLines earlier ref) (line : Text) : ReadAt (rawLines ++ [line]) earlier ref := by
  obtain ⟨before, line', after, items, instr, name, rfl, h⟩ := h
  exact ⟨before, line', after ++ [line], items, instr, name, List.append_assoc _ _ _, h⟩

/-- The state of the loop when it has read `rawLines`, which say `items`. -/
structure HasRead (state : AssemblyState) (rawLines : List Text) (items : List Item) : Prop where
  represents : Represents state items
  reads : ReadsAs (rawLines.map stripLine) items
  located : ∀ earlier ref later, state.table.pending = earlier ++ ref :: later →
    ReadAt rawLines earlier ref

theorem hasRead_zero : HasRead ⟨.zero, waiProgramInit⟩ [] [] :=
  ⟨represents_zero, .nil, fun earlier ref later h => by cases earlier <;> cases h⟩

/-- The names in the list of references are those that the lines mention. -/
theorem Represents.pending_names (h : Represents state items) :
    state.table.pending.map (·.name) = (references items).map storedName := by
  have hnames := congrArg (List.map Prod.snd) h.pending
  rw [List.map_map, List.map_map] at hnames
  rw [← uses_names items 0, List.map_map]
  exact hnames

/-- A line that is accepted is read. -/
theorem HasRead.step (h : HasRead state rawLines items)
    (hline : assembleLine alloc state (rawLines.length + 1) rawLine = .ok state') :
    ∃ items', HasRead state' (rawLines ++ [rawLine]) items' := by
  have hreads {items' : List Item} (hrest : ReadsAs [stripLine rawLine] items') :
      ReadsAs ((rawLines ++ [rawLine]).map stripLine) (items ++ items') := by
    rw [List.map_append]
    exact readsAs_append h.reads hrest
  rcases assembleLine_cases alloc state (rawLines.length + 1) rawLine with
    ⟨hblank, hsame⟩ | ⟨item, hitem, hadd⟩ | ⟨_, _, hbad⟩
  · rw [hline] at hsame
    cases hsame
    refine ⟨items ++ [], by rw [List.append_nil]; exact h.represents, hreads (.blank hblank .nil),
      fun earlier ref later hpending => ?_⟩
    exact (h.located earlier ref later hpending).append _
  · rw [hline] at hadd
    refine ⟨items ++ [item], addItem_ok h.represents hadd.symm, hreads (.item hitem .nil),
      fun earlier ref later hpending => ?_⟩
    rcases addItem_pending hadd.symm with hsame | ⟨instr, name, new, rfl, hnew, hname, hnumber⟩
    · rw [hsame] at hpending
      exact (h.located earlier ref later hpending).append _
    · rw [hnew] at hpending
      rcases List.eq_nil_or_concat later with rfl | ⟨later, last, rfl⟩
      · -- the reference of this line
        obtain ⟨hearlier, href⟩ := List.append_inj' hpending rfl
        cases href
        exact ⟨rawLines, _, [], items, instr, name, rfl, hnumber, h.reads, hitem, hname,
          hearlier ▸ h.represents.pending_names⟩
      · rw [List.concat_eq_append, ← List.cons_append, ← List.append_assoc] at hpending
        obtain ⟨hold, _⟩ := List.append_inj' hpending rfl
        exact (h.located earlier ref later hold).append _
  · rw [hline] at hbad
    cases hbad

/-- A line that is refused, for another reason than want of memory, is not fine. -/
theorem HasRead.refuse (h : HasRead state rawLines items) (hparse : result.error = .errParse)
    (hline : assembleLine alloc state lineNumber rawLine = .error result) :
    ¬ LinesFine storedName ((rawLines ++ [rawLine]).map stripLine) := by
  rintro ⟨items', hreads, hdistinct⟩
  rw [List.map_append] at hreads
  obtain ⟨before, after, rfl, hbefore, hafter⟩ := readsAs_of_append hreads
  obtain rfl := readsAs_unique hbefore h.reads
  rcases assembleLine_cases alloc state lineNumber rawLine with
    ⟨_, hsame⟩ | ⟨item, hitem, hadd⟩ | ⟨hblank, hnone, _⟩
  · rw [hline] at hsame
    cases hsame
  · -- the line says `item`, so its name is in the table already
    rw [hline] at hadd
    have hone : ReadsAs ([rawLine].map stripLine) [item] := .item hitem .nil
    obtain rfl := readsAs_unique hafter hone
    rcases addItem_error h.represents hadd.symm with hoom | ⟨_, hclash⟩
    · cases hparse.symm.trans hoom
    · exact hclash hdistinct
  · cases hafter with
    | blank hblank' _ => exact hblank hblank'
    | item hitem _ => exact hnone _ hitem

/-- Where the loop stops, and what it has read when it does not. -/
theorem assembleLines_stops (alloc : AssemblerAlloc) (rawLines : List Text) {read : List Text}
    (h : HasRead state read items) :
    (∀ state', assembleLines alloc read.length state rawLines = .ok state' →
      ∃ items', HasRead state' (read ++ rawLines) items') ∧
    ∀ result, assembleLines alloc read.length state rawLines = .error result →
      result.error = .errParse → ∃ before line after, rawLines = before ++ line :: after ∧
        result.line = read.length + before.length + 1 ∧
        LinesFine storedName ((read ++ before).map stripLine) ∧
        ¬ LinesFine storedName ((read ++ before ++ [line]).map stripLine) := by
  induction rawLines generalizing state read items with
  | nil =>
    refine ⟨fun state' hrun => ?_, fun result hrun _ => by cases hrun⟩
    cases hrun
    exact ⟨items, by rwa [List.append_nil]⟩
  | cons rawLine rest ih =>
    rw [assembleLines]
    cases hline : assembleLine alloc state (read.length + 1) rawLine with
    | error result =>
      refine ⟨fun state' hrun => (by cases hrun), fun result' hrun hparse => ?_⟩
      cases hrun
      refine ⟨[], rawLine, rest, rfl, assembleLine_error_line hline, ?_, ?_⟩
      · rw [List.append_nil]
        exact ⟨items, h.reads, h.represents.distinct⟩
      · rw [List.append_nil]
        exact h.refuse hparse hline
    | ok next =>
      obtain ⟨items', hnext⟩ := h.step hline
      have hlength : (read ++ [rawLine]).length = read.length + 1 := List.length_append
      obtain ⟨hok, herror⟩ := ih hnext
      rw [hlength] at hok herror
      refine ⟨fun state' hrun => ?_, fun result hrun hparse => ?_⟩
      · obtain ⟨items'', hread⟩ := hok state' hrun
        exact ⟨items'', by rwa [List.append_assoc] at hread⟩
      · obtain ⟨before, line, after, rfl, hnumber, hfine, hbad⟩ := herror result hrun hparse
        rw [List.append_assoc] at hfine hbad
        refine ⟨rawLine :: before, line, after, rfl, ?_, hfine, ?_⟩
        · rw [hnumber, List.length_cons]
          ac_rfl
        · rwa [List.append_assoc] at hbad ⊢

end Loop

/-! ## Unknown labels -/

/-- `resolve_pending` stops at the first reference whose label is not found. -/
theorem resolvePending_stops {labels : List LabelDef} {pending : List PendingRef}
    {program : OwnedProgram} {result : WaiAssemblerResult}
    (hle : ∀ name target, labelFind labels name = some target → target ≤ 2 ^ 63 - 1)
    (h : resolvePending labels program pending = .error result) :
    ∃ earlier ref later, pending = earlier ++ ref :: later ∧ result.line = ref.line ∧
      labelFind labels ref.name = none ∧ ∀ other ∈ earlier, labelFind labels other.name ≠ none := by
  induction pending generalizing program with
  | nil => cases h
  | cons ref rest ih =>
    rw [resolvePending] at h
    split at h
    · next hnone =>
      cases h
      exact ⟨[], ref, rest, rfl, rfl, hnone, fun other hother => by cases hother⟩
    · next target hfind =>
      rw [if_neg (Nat.not_lt.mpr (hle _ _ hfind))] at h
      obtain ⟨earlier, stop, later, rfl, hline, hnone, hbefore⟩ := ih h
      refine ⟨ref :: earlier, stop, later, rfl, hline, hnone, ?_⟩
      rw [List.forall_mem_cons]
      refine ⟨?_, hbefore⟩
      rw [hfind]
      exact Option.some_ne_none _

/-! ## The reported line -/

/-- The number of empty lines before line `n`. -/
def emptyLinesBefore (source : Text) (n : Nat) : Nat :=
  (((source.splitOn '\n').take (n - 1)).filter (·.isEmpty)).length

section Source
variable {alloc : AssemblerAlloc} {source : Text}

/-- The first bad prefix of the lines that `strtok_r` hands out is the first bad prefix of
the text. -/
theorem located_in_text (good : List Text → Prop) {before after : List Text} {line : Text}
    (hclosed : ∀ l n, good l → good (l.take n))
    (hfilter : ∀ l : List Text, good (l.filter (!·.isEmpty)) ↔ good l)
    (hpieces : pieces (· == '\n') source = before ++ line :: after)
    (hgood : good before) (hbad : ¬ good (before ++ [line])) :
    ∃ n, IsLeast {n | ¬ good ((source.splitOn '\n').take n)} n ∧
      n = before.length + 1 + emptyLinesBefore source n := by
  rw [pieces_eq] at hpieces
  obtain ⟨before', after', hsplit, rfl, hkeep, hlength⟩ := split_of_filter hpieces
  have hsplit' : source.splitOn '\n' = before' ++ line :: after' := hsplit
  have hempty : emptyLinesBefore source (before'.length + 1) =
      (before'.filter fun line => !!line.isEmpty).length := by
    rw [emptyLinesBefore, hsplit', Nat.add_sub_cancel, List.take_left]
    simp only [Bool.not_not]
  refine ⟨before'.length + 1, ?_, ?_⟩
  · rw [hsplit']
    refine isLeast_take good hclosed ((hfilter before').mp hgood) fun hgood' => hbad ?_
    have hone : [line].filter (!·.isEmpty) = [line] := List.filter_cons_of_pos hkeep
    rw [← hfilter, List.filter_append, hone] at hgood'
    exact hgood'
  · rw [hempty, hlength, Nat.add_right_comm]

theorem sourceLines_take (n : Nat) :
    (sourceLines source).take n = ((source.splitOn '\n').take n).map stripLine :=
  List.map_take.symm

theorem linesFine_filter_iff {stored : Text → Text} (l : List Text) :
    LinesFine stored ((l.filter (!·.isEmpty)).map stripLine) ↔ LinesFine stored (l.map stripLine) :=
  exists_congr fun _ => and_congr_left' readsAs_filter_iff

theorem referencesFine_filter_iff {stored : Text → Text} {all : List Item} (l : List Text) :
    ReferencesFine stored all ((l.filter (!·.isEmpty)).map stripLine) ↔
      ReferencesFine stored all (l.map stripLine) :=
  exists_congr fun _ => and_congr_left' readsAs_filter_iff

/-- The first line with a reference that the table does not find refers to a label that
no line defines. -/
theorem unresolved_line {state : AssemblyState} {rawLines : List Text} {items : List Item}
    {result : WaiAssemblerResult} (h : HasRead state rawLines items)
    (hresolve : resolvePending state.table.labels state.program state.table.pending =
      .error result) :
    ∃ before line after, rawLines = before ++ line :: after ∧ result.line = before.length + 1 ∧
      ReferencesFine storedName items (before.map stripLine) ∧
      ¬ ReferencesFine storedName items ((before ++ [line]).map stripLine) := by
  have hle : ∀ name target, labelFind state.table.labels name = some target →
      target ≤ 2 ^ 63 - 1 := by
    intro name target hfind
    rw [labelFind_eq h.represents] at hfind
    split at hfind
    · cases hfind
      exact target_le h.represents _
    · cases hfind
  obtain ⟨earlier, ref, later, hpending, hline, hnone, hfound⟩ := resolvePending_stops hle hresolve
  obtain ⟨before, line, after, read, instr, name, rfl, hnumber, hreads, hitem, hname, hnames⟩ :=
    h.located earlier ref later hpending
  refine ⟨before, line, after, rfl, hline.trans hnumber, ⟨read, hreads, fun other hother => ?_⟩, ?_⟩
  · -- `label_find` found what is referred to before
    have hmem : storedName other ∈ earlier.map (·.name) :=
      hnames ▸ List.mem_map_of_mem hother
    obtain ⟨entry, hentry, hstored⟩ := List.mem_map.mp hmem
    have hsome := hfound entry hentry
    rw [Ne, labelFind_eq_none_iff h.represents, hstored] at hsome
    simpa using hsome
  · rintro ⟨items', hreads', hfine⟩
    rw [List.map_append] at hreads'
    obtain ⟨read', last, rfl, _, hlast⟩ := readsAs_of_append hreads'
    have hone : ReadsAs ([line].map stripLine) [.instruction instr (some name)] := .item hitem .nil
    obtain rfl := readsAs_unique hlast hone
    rw [references_append] at hfine
    obtain ⟨label, hlabel, hstored⟩ :=
      hfine name (List.mem_append_right _ List.mem_cons_self)
    rw [hname, labelFind_eq_none_iff h.represents] at hnone
    exact hnone label hlabel hstored

/-- The reported line is that of the first fault, less the empty lines before it. -/
theorem reported_line (h : (waiAssembleSource alloc source).1.error = .errParse) :
    ∃ n, FirstFault storedName (sourceLines source) n ∧
      n = (waiAssembleSource alloc source).1.line + emptyLinesBefore source n := by
  unfold waiAssembleSource at h ⊢
  split at h
  · cases h
  · next hcopy =>
    rw [if_neg hcopy]
    obtain ⟨hok, herror⟩ := assembleLines_stops alloc (pieces (· == '\n') source) hasRead_zero
    split at h
    · next result hrun =>
      obtain ⟨before, line, after, hpieces, hline, hfine, hbad⟩ := herror result hrun h
      obtain ⟨n, hleast, hn⟩ := located_in_text (fun l => LinesFine storedName (l.map stripLine))
        (fun l n hl => by rw [List.map_take]; exact linesFine_take hl n) linesFine_filter_iff
        hpieces hfine hbad
      refine ⟨n, .line (by simpa only [sourceLines_take] using hleast), ?_⟩
      rw [hline, List.length_nil, Nat.zero_add]
      exact hn
    · next state hrun =>
      obtain ⟨items, hread⟩ := hok state hrun
      split at h
      · next result hresolve =>
        obtain ⟨before, line, after, hpieces, hline, hfine, hbad⟩ := unresolved_line hread hresolve
        obtain ⟨n, hleast, hn⟩ := located_in_text
          (fun l => ReferencesFine storedName items (l.map stripLine))
          (fun l n hl => by rw [List.map_take]; exact referencesFine_take hl n)
          referencesFine_filter_iff hpieces hfine hbad
        refine ⟨n, .reference (readsAs_pieces_iff.mp hread.reads) hread.represents.distinct
          (by simpa only [sourceLines_take] using hleast), ?_⟩
        rw [hline]
        exact hn
      · cases h

end Source

/-! ## When the reported line is right -/

/-- The first 63 characters tell the names in the lines apart, and no longer name is defined twice. -/
structure NamesTold (lines : List Text) : Prop where
  apart : ∀ line ∈ lines, ∀ line' ∈ lines, ∀ item item', LineItem line item → LineItem line' item' →
    ∀ name ∈ item.names, ∀ name' ∈ item'.names, storedName name = storedName name' → name = name'
  defined_once : lines.Pairwise fun line line' =>
    ∀ name, LineItem line (.label name) → LineItem line' (.label name) → name.length ≤ 63

section Told
variable {lines : List Text} {source : Text} {items items' all : List Item} {item item' : Item}
  {name name' : Text} {n m : Nat}

/-- Names that fit are told apart. -/
theorem namesTold_of_fit (hfit : LabelNamesFit source) : NamesTold (sourceLines source) where
  apart line hline line' hline' item item' hitem hitem' name hname name' hname' hstored := by
    rwa [storedName_of_fit (hfit line hline item hitem name hname),
      storedName_of_fit (hfit line' hline' item' hitem' name' hname')] at hstored
  defined_once := List.pairwise_of_forall_mem_list fun line hline _ _ name hitem _ =>
    hfit line hline _ hitem name List.mem_cons_self

/-- What the first lines mention is told apart. -/
theorem told_apart (h : NamesTold lines) (hreads : ReadsAs (lines.take n) items)
    (hreads' : ReadsAs (lines.take m) items') (hitem : item ∈ items) (hitem' : item' ∈ items')
    (hname : name ∈ item.names) (hname' : name' ∈ item'.names)
    (hstored : storedName name = storedName name') : name = name' := by
  obtain ⟨line, hline, hsays⟩ := exists_line_of_readsAs hreads hitem
  obtain ⟨line', hline', hsays'⟩ := exists_line_of_readsAs hreads' hitem'
  exact h.apart line (List.mem_of_mem_take hline) line' (List.mem_of_mem_take hline') item item' hsays
    hsays' name hname name' hname' hstored

/-- A label that is defined twice is short. -/
theorem defined_once_of_reads (h : NamesTold lines) (hreads : ReadsAs (lines.take n) items) :
    (labelNames items).Pairwise fun earlier later => earlier = later → later.length ≤ 63 := by
  have honce := h.defined_once.take (i := n)
  generalize lines.take n = front at hreads honce
  induction hreads with
  | nil => exact .nil
  | blank _ _ ih => exact ih honce.tail
  | @item _ _ item _ hitem hrest ih =>
    cases item with
    | instruction instr target => exact ih honce.tail
    | label name =>
      refine .cons (fun later hlater heq => ?_) (ih honce.tail)
      obtain ⟨line, hline, hsays⟩ := exists_line_of_readsAs hrest (mem_labelNames_iff.mp hlater)
      exact (List.pairwise_cons.mp honce).1 line hline later (heq ▸ hitem) hsays

theorem namesDistinct_iff (h : NamesTold lines) (hreads : ReadsAs (lines.take n) items) :
    NamesDistinct storedName items ↔ NamesDistinct id items := by
  constructor
  · intro hdistinct
    refine (hdistinct.and (defined_once_of_reads h hreads)).imp ?_
    rintro earlier later ⟨hne, hshort⟩ rfl
    exact hne (storedName_of_fit (hshort rfl))
  · intro hdistinct
    refine hdistinct.imp_of_mem fun {earlier later} hearlier hlater hne hstored => hne ?_
    have hshort : later.length ≤ 63 := hstored ▸ List.length_take_le 63 earlier
    exact told_apart h hreads hreads (mem_labelNames_iff.mp hearlier) (mem_labelNames_iff.mp hlater)
      List.mem_cons_self List.mem_cons_self (hstored.trans (storedName_of_fit hshort).symm)

theorem linesFine_iff (h : NamesTold lines) (n : Nat) :
    LinesFine storedName (lines.take n) ↔ LinesFine id (lines.take n) :=
  exists_congr fun _ => and_congr_right (namesDistinct_iff h)

theorem referencesFine_iff (h : NamesTold lines) (hall : ReadsAs (lines.take m) all) (n : Nat) :
    ReferencesFine storedName all (lines.take n) ↔ ReferencesFine id all (lines.take n) := by
  refine exists_congr fun items => and_congr_right fun hreads => ?_
  refine forall₂_congr fun name hname => exists_congr fun label => and_congr_right fun hlabel => ?_
  obtain ⟨instr, hmem⟩ := mem_references_iff.mp hname
  exact ⟨told_apart h hall hreads (mem_labelNames_iff.mp hlabel) (mem_instructionLines_iff.mp hmem)
    List.mem_cons_self List.mem_cons_self, congrArg storedName⟩

/-- For names that are told apart, the table sees the faults that the text has. -/
theorem firstFault_of_told (h : NamesTold lines) (hfault : FirstFault storedName lines n) :
    FirstFault id lines n := by
  cases hfault with
  | line hleast =>
    refine .line ?_
    simpa only [linesFine_iff h] using hleast
  | reference hreads hdistinct hleast =>
    have htake := hreads
    rw [← List.take_length (l := lines)] at htake
    refine .reference hreads ((namesDistinct_iff h htake).mp hdistinct) ?_
    simpa only [referencesFine_iff h htake] using hleast

end Told

/-- A number that the `int` of a line number counts up to. -/
def intOf (n : Nat) : Int :=
  (BitVec.ofNat 32 n).toInt

/-- The error names the line of the first fault. -/
def PointsAtFault (alloc : AssemblerAlloc) (source : Text) : Prop :=
  ∃ n : Nat, FirstFault id (sourceLines source) n ∧
    intOf (waiAssembleSource alloc source).1.line = n

/-- The first fault is in line `n`. For the first 63 characters of the names, it is `hidden` lines
further down, and `hidden` lines before that are empty, as far as the counter goes. -/
def LineCountRight (source : Text) : Prop :=
  ∃ n hidden : Nat, FirstFault id (sourceLines source) n ∧ n < 2 ^ 31 ∧
    FirstFault storedName (sourceLines source) (n + hidden) ∧
    emptyLinesBefore source (n + hidden) ≡ hidden [MOD 2 ^ 32]

/-- No empty line stands before the first fault, and its number is an `int`. -/
def NoEmptyLine (source : Text) : Prop :=
  ∃ n, FirstFault id (sourceLines source) n ∧ emptyLinesBefore source n = 0 ∧ n < 2 ^ 31

theorem intOf_eq_iff {k n : Nat} : intOf k = n ↔ k % 2 ^ 32 = n ∧ n < 2 ^ 31 := by
  rw [intOf, BitVec.toInt_eq_toNat_cond, BitVec.toNat_ofNat]
  omega

/-- The reported line of a source that is refused for one of its lines or for a label is
the line of the first fault exactly when no empty line stands before it. (For names of more
than 63 characters that the table confuses, the empty lines have to make up for the lines
between the fault and the one where the first 63 characters show one.) -/
theorem error_line_iff (alloc : AssemblerAlloc) (source : Text)
    (h : (waiAssembleSource alloc source).1.error = .errParse) :
    (PointsAtFault alloc source ↔ LineCountRight source) ∧
    (NamesTold (sourceLines source) → (PointsAtFault alloc source ↔ NoEmptyLine source)) ∧
    (LabelNamesFit source → (PointsAtFault alloc source ↔ NoEmptyLine source)) := by
  obtain ⟨stop, hstop, hline⟩ := reported_line h
  have htold : NamesTold (sourceLines source) →
      (PointsAtFault alloc source ↔ NoEmptyLine source) := by
    intro htold
    have hfault := firstFault_of_told htold hstop
    constructor
    · rintro ⟨n, hn, hreported⟩
      obtain rfl := firstFault_unique hn hfault
      obtain ⟨heq, hlt⟩ := intOf_eq_iff.mp hreported
      exact ⟨n, hn, by omega, hlt⟩
    · rintro ⟨n, hn, hempty, hlt⟩
      obtain rfl := firstFault_unique hn hfault
      refine ⟨n, hn, intOf_eq_iff.mpr ⟨?_, hlt⟩⟩
      omega
  refine ⟨⟨?_, ?_⟩, htold, fun hfit => htold (namesTold_of_fit hfit)⟩
  · rintro ⟨n, hfault, hn⟩
    obtain ⟨hmod, hlt⟩ := intOf_eq_iff.mp hn
    have hle : n ≤ stop := by omega
    have hsum : n + (stop - n) = stop := Nat.add_sub_cancel' hle
    refine ⟨n, stop - n, hfault, hlt, hsum.symm ▸ hstop, ?_⟩
    rw [hsum, Nat.ModEq]
    omega
  · rintro ⟨n, hidden, hfault, hlt, hstop', hempty⟩
    obtain rfl := firstFault_unique hstop' hstop
    refine ⟨n, hfault, intOf_eq_iff.mpr ⟨?_, hlt⟩⟩
    rw [Nat.ModEq] at hempty
    omega

/-- `nop`, and a second line that says nothing. -/
def badLineSource : Text :=
  ['n', 'o', 'p', '\n', 'b', 'a', 'd']

theorem error_line_iff_bad :
    (waiAssembleSource .unlimited badLineSource).1.error = .errParse ∧
    (PointsAtFault .unlimited badLineSource ↔ LineCountRight badLineSource) ∧
    (PointsAtFault .unlimited badLineSource ↔ NoEmptyLine badLineSource) := by
  have herror : (waiAssembleSource .unlimited badLineSource).1.error = .errParse := by decide
  obtain ⟨hiff, _, hfit⟩ := error_line_iff .unlimited badLineSource herror
  exact ⟨herror, hiff, hfit (labelNamesFit_of_short (by decide))⟩

/-- An empty line and a line that says nothing. -/
def emptyLineSource : Text :=
  ['\n', 'b', 'a', 'd']

/-- The fault is in the second line, and the assembler reports the first. -/
theorem empty_line_not_counted :
    (waiAssembleSource .unlimited emptyLineSource).1.error = .errParse ∧
      ¬ PointsAtFault .unlimited emptyLineSource := by
  have hlines : sourceLines emptyLineSource = [[], ['b', 'a', 'd']] := by decide
  have hbad : ∀ item, ¬ LineItem ['b', 'a', 'd'] item := by
    intro item hitem
    obtain ⟨_, _, hparse, _⟩ := (lineItem_of_no_colon (by decide)).mp hitem
    cases hparse
  have hfault : FirstFault id (sourceLines emptyLineSource) 2 := by
    rw [hlines]
    refine .line (@isLeast_take _ [[]] [] _ (LinesFine id) (fun l n hl => linesFine_take hl n) ?_ ?_)
    · exact ⟨[], .blank (fun c hc => by cases hc) .nil, .nil⟩
    · rintro ⟨items, hreads, _⟩
      cases hreads with
      | item hitem _ => exact not_lineItem_of_blank (fun c hc => by cases hc) hitem
      | blank _ hrest =>
        cases hrest with
        | item hitem _ => exact hbad _ hitem
        | blank hblank _ => cases hblank 'b' List.mem_cons_self
  refine ⟨by decide, ?_⟩
  rintro ⟨n, hn, hreported⟩
  obtain rfl := firstFault_unique hn hfault
  revert hreported
  decide

end Waivm
