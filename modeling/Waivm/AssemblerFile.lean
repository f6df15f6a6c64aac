import Waivm.AssemblerErrors
import Waivm.Cli

/-!
# What is assembled of a file

`wai_assemble_file` reads the bytes of a file into a buffer and assembles the C string
in it, which ends at the first NUL byte. `NulHarmless` says of a file that nothing is
lost in this way.

Results:

1. `splitOn_append`: the fields of a text that is continued.
2. `readsAs_fileText_iff`: what the lines of the whole file say.
3. `whole_file_assembled_iff`: when an accepted file was assembled as a whole.
-/

namespace Waivm

open CString
open LittleEndian (Byte)

/-- The NUL character. -/
def nul : Char := Char.ofNat 0

/-- The characters of a whole file. -/
def fileText (content : List Byte) : Text :=
  content.map fun byte => Char.ofNat byte.toNat

/-- A line that holds something other than separators and does not end as the definition
of a label does. -/
def isInstructionLine (line : Text) : Bool :=
  !line.all isSeparator && line.getLast? != some ':'

/-- Every line of the file was assembled: the lines say what the assembler read, and
there is an instruction for each one that is not blank and defines no label. -/
structure WholeFileAssembled (content : List Byte) (program : OwnedProgram) : Prop where
  lines : ∃ items, ReadsAs (sourceLines (textOf content)) items ∧
    ReadsAs (sourceLines (fileText content)) items
  count : program.count = ((sourceLines (fileText content)).filter isInstructionLine).length

/-- The last line of a text. -/
def lastLine (text : Text) : Text :=
  (text.splitOn '\n').getLastD []

/-- If there is a NUL byte, the first one stands in a comment, and the lines behind this
line are blank. -/
def NulHarmless (content : List Byte) : Prop :=
  ∀ before after, content = before ++ 0 :: after → 0 ∉ before →
    ';' ∈ lastLine (fileText before) ∧
      ∀ line ∈ (sourceLines (fileText after)).tail, ∀ c ∈ line, isSeparator c = true

/-! ## Lines of a text that is continued -/

section Split
variable {α : Type} [BEq α]

/-- The last field of a text is continued by the first one of what stands behind it. -/
theorem splitOn_append (delim : α) (l l' : List α) :
    (l ++ l').splitOn delim = (l.splitOn delim).dropLast ++
      ((l.splitOn delim).getLastD [] ++ (l'.splitOn delim).headD []) :: (l'.splitOn delim).tail := by
  induction l with
  | nil =>
    obtain ⟨first, rest, hsplit⟩ := List.exists_cons_of_ne_nil (List.splitOn_ne_nil delim l')
    rw [List.nil_append, List.splitOn_nil, hsplit]
    rfl
  | cons a l ih =>
    obtain ⟨first, rest, hsplit⟩ := List.exists_cons_of_ne_nil (List.splitOn_ne_nil delim l)
    rw [hsplit] at ih
    rw [List.cons_append, List.splitOn_cons_eq_if_modifyHead, List.splitOn_cons_eq_if_modifyHead, ih,
      hsplit]
    -- the first field changes, or there is one more; the last one is the same unless it is both
    cases rest with
    | nil => split <;> rfl
    | cons second rest => split <;> rfl

end Split

/-- The lines of a text that is continued. -/
theorem sourceLines_append (text rest : Text) :
    sourceLines (text ++ rest) = (sourceLines text).dropLast ++
      stripLine (lastLine text ++ (rest.splitOn '\n').headD []) :: (sourceLines rest).tail := by
  rw [sourceLines, splitOn_append, List.map_append, List.map_cons, List.map_dropLast, List.map_tail]
  rfl

theorem sourceLines_eq (text : Text) :
    sourceLines text = (sourceLines text).dropLast ++ [stripLine (lastLine text)] := by
  have h := sourceLines_append text []
  rw [List.append_nil, List.splitOn_nil, List.headD_cons, List.append_nil] at h
  exact h

/-- The last line of a text is behind its other lines. -/
theorem splitOn_eq_lines (text : Text) :
    text.splitOn '\n' = (text.splitOn '\n').dropLast ++ [lastLine text] := by
  have h := splitOn_append '\n' text []
  rw [List.append_nil, List.splitOn_nil, List.headD_cons, List.append_nil] at h
  exact h

/-- The first line of a text. -/
theorem headD_splitOn (text : Text) :
    (text.splitOn '\n').headD [] = text.takeWhile (· != '\n') := by
  induction text with
  | nil => rfl
  | cons c rest ih =>
    obtain ⟨first, lines, hsplit⟩ := List.exists_cons_of_ne_nil (List.splitOn_ne_nil '\n' rest)
    rw [hsplit, List.headD_cons] at ih
    rw [List.splitOn_cons_eq_if_modifyHead, List.takeWhile_cons, ← ih, hsplit]
    by_cases hc : c = '\n'
    · subst hc
      rfl
    · simp [hc]

/-- The last line of a text with one more character. -/
theorem lastLine_concat (text : Text) (c : Char) :
    lastLine (text ++ [c]) = if c = '\n' then [] else lastLine text ++ [c] := by
  have hsplit := splitOn_append '\n' text [c]
  rw [List.splitOn_cons_eq_if_modifyHead, List.splitOn_nil] at hsplit
  rw [lastLine, hsplit]
  by_cases hc : c = '\n'
  · subst hc
    simp
  · simp [hc, lastLine]

/-! ## A NUL in a line -/

section Nul
variable {line rest : Text} {item : Item}

/-- Trimming removes blanks only. -/
theorem mem_trim {text : Text} {c : Char} (h : c ∈ text) (hc : isspace c = false) :
    c ∈ trim text := by
  have hdrop : ∀ text : Text, c ∈ text → c ∈ text.dropWhile isspace := by
    intro text h
    rw [← List.takeWhile_append_dropWhile (p := isspace) (l := text), List.mem_append] at h
    refine h.resolve_left fun htake => ?_
    rw [List.mem_takeWhile_imp htake] at hc
    cases hc
  rw [trim, List.rdropWhile, List.mem_reverse]
  exact hdrop _ (List.mem_reverse.mpr (hdrop _ h))

/-- Behind the beginning of a comment, a line may go on as it likes. -/
theorem stripLine_comment (h : ';' ∈ line) : stripLine (line ++ rest) = stripLine line := by
  have hlength : (line.takeWhile (· != ';')).length ≠ line.length := by
    intro heq
    have hall := List.mem_takeWhile_imp (p := (· != ';'))
      ((List.takeWhile_prefix _).eq_of_length heq ▸ h)
    simp at hall
  rw [stripLine, List.takeWhile_append, if_neg hlength, stripLine]

/-- A NUL that is not in a comment stays in the line. -/
theorem nul_mem_stripLine (rest : Text) (h : ';' ∉ line) : nul ∈ stripLine (line ++ nul :: rest) := by
  have hall : ∀ c ∈ line, (c != ';') = true := by
    intro c hc
    rw [bne_iff_ne]
    rintro rfl
    exact h hc
  refine mem_trim ?_ rfl
  rw [List.takeWhile_append_of_pos hall, List.takeWhile_cons_of_pos rfl]
  exact List.mem_append_right _ List.mem_cons_self

/-- No line says something that has a NUL in it. -/
theorem nul_not_mem (h : LineItem line item) : nul ∉ line := by
  intro hmem
  cases h with
  | @label name blanks hname hblanks =>
    rcases List.mem_append.mp hmem with hmem | hmem
    · rcases List.mem_append.mp hmem with hmem | hmem
      · cases (word_of_identifier hname).chars _ hmem
      · cases hblanks _ hmem
    · cases List.mem_singleton.mp hmem
  | instruction hform =>
    have hpiece : ∃ token ∈ pieces isSeparator line, nul ∈ token := exists_piece_of_mem hmem rfl
    obtain ⟨token, htoken, hnul⟩ := hpiece
    rw [← tokensOf_eq] at htoken
    cases (words_of_form hform token htoken).chars _ hnul

/-- Lines that say nothing are blank. -/
theorem readsAs_nil_iff {lines : List Text} :
    ReadsAs lines [] ↔ ∀ line ∈ lines, ∀ c ∈ line, isSeparator c = true := by
  constructor
  · intro h
    generalize hitems : ([] : List Item) = items at h
    induction h with
    | nil => exact fun line hline => by cases hline
    | blank hblank _ ih => exact List.forall_mem_cons.mpr ⟨hblank, ih hitems⟩
    | item => cases hitems
  · intro h
    induction lines with
    | nil => exact .nil
    | cons line rest ih =>
      rw [List.forall_mem_cons] at h
      exact .blank h.1 (ih h.2)

end Nul

/-! ## The instructions of a text -/

/-- The lines of instructions are those that are not blank and end in no colon. -/
theorem length_instructionLines {rawLines : List Text} {items : List Item}
    (h : ReadsAs (rawLines.map stripLine) items) :
    ((rawLines.map stripLine).filter isInstructionLine).length = (instructionLines items).length := by
  induction rawLines generalizing items with
  | nil =>
    cases h
    rfl
  | cons rawLine rest ih =>
    rw [List.map_cons] at h ⊢
    cases h with
    | blank hblank hrest =>
      rw [List.filter_cons_of_neg, ih hrest]
      rw [isInstructionLine, List.all_eq_true.mpr hblank, Bool.not_true, Bool.false_and]
      exact Bool.false_ne_true
    | @item _ _ item items hitem hrest =>
      have hnot : ¬ (stripLine rawLine).all isSeparator = true := fun hall =>
        not_lineItem_of_blank (List.all_eq_true.mp hall) hitem
      have hline : isInstructionLine (stripLine rawLine) =
          ((stripLine rawLine).getLast? != some ':') := by
        rw [isInstructionLine, Bool.eq_false_iff.mpr hnot]
        rfl
      cases item with
      | label name =>
        have hlast : (stripLine rawLine).getLast? = some ':' := by
          generalize stripLine rawLine = line at hitem
          cases hitem
          exact List.getLast?_concat
        rw [List.filter_cons_of_neg, ih hrest]
        · rfl
        · rw [hline, hlast]
          decide
      | instruction instr target =>
        have hlast : (stripLine rawLine).getLast? ≠ some ':' := by
          intro hlast
          obtain ⟨body, hbody⟩ := List.getLast?_eq_some_iff.mp hlast
          have hhead : ∀ c ∈ (stripLine rawLine).head?, isspace c = false := fun c hc => head_trim hc
          rw [hbody] at hitem hhead
          cases ((lineItem_of_colon hhead).mp hitem).2
        rw [List.filter_cons_of_pos, List.length_cons, ih hrest]
        · rfl
        · rw [hline, bne_iff_ne]
          exact hlast

/-! ## The whole file -/

section File
variable {before after content : List Byte} {items : List Item}

theorem textOf_eq (h : 0 ∉ before) : textOf (before ++ 0 :: after) = fileText before := by
  have hall : ∀ byte ∈ before, decide (byte ≠ 0) = true := by
    intro byte hbyte
    rw [decide_eq_true_eq]
    rintro rfl
    exact h hbyte
  rw [textOf, List.takeWhile_append_of_pos hall, List.takeWhile_cons_of_neg (by decide),
    List.append_nil, fileText]

theorem textOf_eq_fileText (h : 0 ∉ content) : textOf content = fileText content := by
  have hall : ∀ byte ∈ content, decide (byte ≠ 0) = true := by
    intro byte hbyte
    rw [decide_eq_true_eq]
    rintro rfl
    exact h hbyte
  rw [textOf, List.takeWhile_eq_self_iff.mpr hall, fileText]

/-- The lines of a file with a NUL byte: those that are read, but the last of them goes on. -/
theorem sourceLines_nul (before after : List Byte) :
    ∃ rest, sourceLines (fileText (before ++ 0 :: after)) =
      (sourceLines (fileText before)).dropLast ++
        stripLine (lastLine (fileText before) ++ nul :: rest) ::
          (sourceLines (fileText after)).tail := by
  refine ⟨((fileText after).splitOn '\n').headD [], ?_⟩
  have hsplit : (nul :: fileText after).splitOn '\n' =
      ((fileText after).splitOn '\n').modifyHead (nul :: ·) :=
    List.splitOn_cons_eq_if_modifyHead _ _
  have htail : (sourceLines (nul :: fileText after)).tail = (sourceLines (fileText after)).tail := by
    rw [sourceLines, hsplit, ← List.map_tail, List.tail_modifyHead, List.map_tail, sourceLines]
  have happend : fileText (before ++ 0 :: after) = fileText before ++ nul :: fileText after :=
    List.map_append
  rw [happend, sourceLines_append, htail, hsplit]
  congr 3
  cases h : (fileText after).splitOn '\n' with
  | nil => exact absurd h (List.splitOn_ne_nil _ _)
  | cons first rest => rfl

/-- The lines of the whole file say what was read exactly when nothing but the rest of a
comment and blank lines stands behind the first NUL. -/
theorem readsAs_fileText_iff (hreads : ReadsAs (sourceLines (fileText before)) items) :
    ReadsAs (sourceLines (fileText (before ++ 0 :: after))) items ↔
      ';' ∈ lastLine (fileText before) ∧
        ∀ line ∈ (sourceLines (fileText after)).tail, ∀ c ∈ line, isSeparator c = true := by
  obtain ⟨rest, hlines⟩ := sourceLines_nul before after
  by_cases hcomment : ';' ∈ lastLine (fileText before)
  · rw [hlines, stripLine_comment hcomment, List.append_cons, ← sourceLines_eq, ← readsAs_nil_iff]
    constructor
    · intro h
      obtain ⟨read, behind, heq, hread, hbehind⟩ := readsAs_of_append h
      obtain rfl := readsAs_unique hreads hread
      rw [List.self_eq_append_right] at heq
      exact ⟨hcomment, heq ▸ hbehind⟩
    · rintro ⟨_, hbehind⟩
      have h := readsAs_append hreads hbehind
      rwa [List.append_nil] at h
  · constructor
    · intro h
      have hnul := nul_mem_stripLine rest hcomment
      rw [hlines] at h
      obtain ⟨_, _, _, _, hline⟩ := readsAs_of_append h
      cases hline with
      | blank hblank _ => cases hblank _ hnul
      | item hitem _ => exact absurd hnul (nul_not_mem hitem)
    · rintro ⟨hmem, _⟩
      exact absurd hmem hcomment

/-- There is one first occurrence. -/
theorem first_unique {α : Type} [DecidableEq α] {before after before' after' : List α} {a : α}
    (h : a ∉ before) (h' : a ∉ before') (heq : before ++ a :: after = before' ++ a :: after') :
    before = before' ∧ after = after' := by
  have hlength := congrArg (List.idxOf a) heq
  rw [List.idxOf_append_of_notMem h, List.idxOf_append_of_notMem h', List.idxOf_cons_self,
    List.idxOf_cons_self] at hlength
  obtain ⟨hbefore, hafter⟩ := List.append_inj heq hlength
  exact ⟨hbefore, (List.cons.inj hafter).2⟩

/-- The whole of an accepted file was assembled exactly when nothing is lost behind its
first NUL byte. -/
theorem whole_file_assembled_iff (alloc : AssemblerAlloc) (content : List Byte)
    (out : OwnedProgram) (h : (waiAssembleFile alloc (some content) out).1.error = .ok) :
    WholeFileAssembled content (waiAssembleFile alloc (some content) out).2 ↔
      NulHarmless content := by
  obtain ⟨_, heq, hok, hfile⟩ := assembleFile_ok h
  cases heq
  obtain ⟨items, hreads, _, hprogram⟩ := assembled_items hok
  -- the count follows from what the lines of the file say
  have hwhole : WholeFileAssembled content (waiAssembleFile alloc (some content) out).2 ↔
      ReadsAs (sourceLines (fileText content)) items := by
    constructor
    · rintro ⟨⟨items', hreads', hfull⟩, _⟩
      obtain rfl := readsAs_unique hreads hreads'
      exact hfull
    · intro hfull
      refine ⟨⟨items, hreads, hfull⟩, ?_⟩
      rw [hfile, OwnedProgram.count_eq_length, hprogram, List.length_map]
      exact (length_instructionLines hfull).symm
  rw [hwhole]
  by_cases hnul : 0 ∈ content
  · obtain ⟨before, after, rfl, hfirst⟩ := List.eq_append_cons_of_mem hnul
    rw [textOf_eq hfirst] at hreads
    rw [readsAs_fileText_iff hreads]
    constructor
    · intro hharmless before' after' hsplit hfirst'
      obtain ⟨rfl, rfl⟩ := first_unique hfirst hfirst' hsplit
      exact hharmless
    · intro hharmless
      exact hharmless before after rfl hfirst
  · constructor
    · rintro _ before after rfl
      exact absurd (List.mem_append_right _ List.mem_cons_self) hnul
    · rintro _
      rwa [← textOf_eq_fileText hnul]

end File

/-- `nop`, with a NUL in the comment of its line. -/
def nulCommentFile : List Byte :=
  [0x6e, 0x6f, 0x70, 0x3b, 0, 0x0a]

theorem whole_file_assembled_iff_comment :
    (waiAssembleFile .unlimited (some nulCommentFile) waiProgramInit).1.error = .ok ∧
    (WholeFileAssembled nulCommentFile
        (waiAssembleFile .unlimited (some nulCommentFile) waiProgramInit).2 ↔
      NulHarmless nulCommentFile) := by
  have hok : (waiAssembleFile .unlimited (some nulCommentFile) waiProgramInit).1.error = .ok := by
    decide
  exact ⟨hok, whole_file_assembled_iff .unlimited nulCommentFile waiProgramInit hok⟩

/-- `nop`, a line that holds a NUL, and `ret`. -/
def nulLineFile : List Byte :=
  [0x6e, 0x6f, 0x70, 0x0a, 0, 0x0a, 0x72, 0x65, 0x74, 0x0a]

/-- One instruction is made of a file with three lines that are neither blank nor labels. -/
theorem nul_truncates :
    (waiAssembleFile .unlimited (some nulLineFile) waiProgramInit).1.error = .ok ∧
      ¬ WholeFileAssembled nulLineFile
        (waiAssembleFile .unlimited (some nulLineFile) waiProgramInit).2 := by
  refine ⟨by decide, fun h => ?_⟩
  have hcount := h.count
  revert hcount
  decide

end Waivm
