import Waivm.AssemblerFile
import Waivm.DebuggerRun

/-!
# Lines and commands

The debugger reads through a buffer of 256 characters, so a line of more than 255 comes in
pieces, and each piece that is not blank is a command.

Results:
1. `splitCommand_congr`: a first word and its argument tell what of a line is not blank.
2. `read_so_far`: the commands dispatched are those of the text that was read, as long as
   each line has one piece that is not blank.
3. `one_command_per_line_iff`: when a line is one command.
4. `one_command_of_short`: lines of at most 255 characters.
-/

namespace Waivm

open CString
open Machine (Outcome Reaches)

/-- The first word and the argument that `wai_debugger_run` makes of a line; `none` for a blank
one. -/
def splitCommand (line : Text) : Option (Text × Option Text) :=
  let cmd := trimLine line
  if cmd = [] then none
  else
    match cmd.dropWhile (!isspace ·) with
    | [] => some (cmd, none)
    | _ :: rest => some (cmd.takeWhile (!isspace ·), some (trimLine rest))

/-- The commands in the lines of a text. -/
def commandsIn (text : Text) : List DebuggerCommand :=
  (text.splitOn '\n').filterMap parseCommand

/-- In the run on `input`, `fgets` is called in the state `s`, when the text `read` has been
read, and puts `buffer` into the buffer. -/
structure Reads (program : OwnedProgram) (input : Text) (s : DebuggerState program.count)
    (read buffer rest : Text) : Prop where
  reached : DebuggerReaches program input s
  prompt : AtPrompt s
  position : input = read ++ s.input
  buffer_eq : fgets debuggerLineSize s.input = some (buffer, rest)

/-- Every line is one command: what is dispatched of a buffer is the first word and the argument
of the whole line around it, the commands dispatched before are those of the lines before, and
at the end of the input those of all lines. -/
structure OneCommandPerLine (program : OwnedProgram) (input : Text) : Prop where
  dispatch : ∀ s read buffer rest split, Reads program input s read buffer rest →
    splitCommand (cString buffer) = some split →
      s.dispatched = (read.splitOn '\n').dropLast.filterMap parseCommand ∧
      splitCommand (lastLine read ++ s.input.takeWhile (· != '\n')) = some split
  finish : ∀ s, DebuggerReaches program input s → AtPrompt s → s.input = [] →
    s.dispatched = commandsIn input

/-- The number of characters of a line that a buffer holds. -/
def pieceSize : Nat := debuggerLineSize - 1

/-- The piece of a line that a call of `fgets` gets. -/
def pieceAt (input : Text) : Text :=
  (input.takeWhile (· != '\n')).take pieceSize

/-- Whenever a piece of a line is read that is not blank, the rest of the line is blank, before
the piece and behind it. -/
def OnePiecePerLine (program : OwnedProgram) (input : Text) : Prop :=
  ∀ s read buffer rest, Reads program input s read buffer rest →
    (∃ c ∈ buffer, isspace c = false) →
      (∀ c ∈ lastLine read, isspace c = true) ∧
      ∀ c ∈ (s.input.takeWhile (· != '\n')).drop pieceSize, isspace c = true

/-! ## 1. Words of a line -/

/-- The characters that are not blank. -/
def solid (text : Text) : Text :=
  text.filter (!isspace ·)

section Words
variable {text blanks line line' : Text}

theorem solid_append (text rest : Text) : solid (text ++ rest) = solid text ++ solid rest :=
  List.filter_append ..

theorem solid_eq_nil_iff : solid text = [] ↔ ∀ c ∈ text, isspace c = true := by
  rw [solid, List.filter_eq_nil_iff]
  simp

/-- A line is its trimmed text and blanks around it. -/
theorem trimLine_spec (text : Text) : ∃ before behind, text = before ++ trimLine text ++ behind ∧
    (∀ c ∈ before, isspace c = true) ∧ ∀ c ∈ behind, isspace c = true := by
  refine ⟨text.takeWhile isspace, (text.dropWhile isspace).rtakeWhile isspace, ?_,
    fun c hc => List.mem_takeWhile_imp hc, fun c hc => List.mem_rtakeWhile_imp hc⟩
  rw [trimLine, List.append_assoc, List.rdropWhile_append_rtakeWhile,
    List.takeWhile_append_dropWhile]

/-- Trimming removes nothing but blanks. -/
theorem solid_trimLine (text : Text) : solid (trimLine text) = solid text := by
  obtain ⟨before, behind, hsplit, hbefore, hbehind⟩ := trimLine_spec text
  have hsolid := congrArg solid hsplit
  rw [solid_append, solid_append, solid_eq_nil_iff.mpr hbefore, solid_eq_nil_iff.mpr hbehind,
    List.nil_append, List.append_nil] at hsolid
  exact hsolid.symm

theorem trimLine_eq_nil_iff : trimLine text = [] ↔ ∀ c ∈ text, isspace c = true := by
  rw [← solid_eq_nil_iff, ← solid_trimLine]
  constructor
  · intro h
    rw [h]
    rfl
  · intro h
    by_contra hne
    -- a trimmed text begins with a character that is not blank
    obtain ⟨c, rest, hcons⟩ := List.exists_cons_of_ne_nil hne
    have hc : isspace c = false := head_trim (congrArg List.head? hcons)
    have hmem : c ∈ trimLine text := hcons ▸ List.mem_cons_self
    rw [solid_eq_nil_iff.mp h c hmem] at hc
    cases hc

theorem trimLine_blank_append (h : ∀ c ∈ blanks, isspace c = true) (text : Text) :
    trimLine (blanks ++ text) = trimLine text := by
  rw [trimLine, List.dropWhile_append_of_pos h, trimLine]

theorem trimLine_append_blank (text : Text) (h : ∀ c ∈ blanks, isspace c = true) :
    trimLine (text ++ blanks) = trimLine text := by
  by_cases hblank : text.dropWhile isspace = []
  · -- all of it is blank
    have htext := List.dropWhile_eq_nil_iff.mp hblank
    rw [trimLine_eq_nil_iff.mpr htext, trimLine_eq_nil_iff]
    exact List.forall_mem_append.mpr ⟨htext, h⟩
  · have hdrop : (text ++ blanks).dropWhile isspace = text.dropWhile isspace ++ blanks := by
      rw [List.dropWhile_append, if_neg (by simpa using hblank)]
    rw [trimLine, hdrop, List.rdropWhile, List.reverse_append,
      List.dropWhile_append_of_pos fun c hc => h c (List.mem_reverse.mp hc)]
    rfl

/-- Blanks around a line change nothing. -/
theorem splitCommand_around {before behind : Text} (hbefore : ∀ c ∈ before, isspace c = true)
    (hbehind : ∀ c ∈ behind, isspace c = true) (line : Text) :
    splitCommand (before ++ line ++ behind) = splitCommand line := by
  unfold splitCommand
  rw [trimLine_append_blank _ hbehind, trimLine_blank_append hbefore]

theorem parseCommand_eq (line : Text) :
    parseCommand line = (splitCommand line).map fun split => commandOf split.1 split.2 := by
  unfold parseCommand splitCommand
  by_cases hblank : trimLine line = []
  · simp only [hblank, if_true]
    rfl
  · simp only [hblank, if_false]
    cases (trimLine line).dropWhile (!isspace ·) <;> rfl

theorem splitCommand_eq_none_iff : splitCommand line = none ↔ ∀ c ∈ line, isspace c = true := by
  rw [← trimLine_eq_nil_iff]
  unfold splitCommand
  by_cases hblank : trimLine line = []
  · simp only [hblank, if_true]
  · simp only [hblank, if_false, iff_false]
    cases (trimLine line).dropWhile (!isspace ·) <;> exact nofun

/-- The first word and the argument hold everything that is not blank. -/
theorem solid_of_split {cmd : Text} {arg : Option Text} (h : splitCommand line = some (cmd, arg)) :
    solid line = solid (cmd ++ arg.getD []) := by
  rw [← solid_trimLine]
  unfold splitCommand at h
  by_cases hblank : trimLine line = []
  · simp only [hblank, if_true] at h
    cases h
  · simp only [hblank, if_false] at h
    have hsplit := List.takeWhile_append_dropWhile (p := (!isspace ·)) (l := trimLine line)
    cases hrest : (trimLine line).dropWhile (!isspace ·) with
    | nil =>
      rw [hrest] at h
      cases h
      rw [Option.getD_none, List.append_nil]
    | cons c rest =>
      have hc := List.head?_dropWhile_not (!isspace ·) (trimLine line)
      rw [hrest] at h hsplit hc
      cases h
      have hblank : isspace c = true := (Bool.not_eq_false' _).mp hc
      have hcons : solid (c :: rest) = solid rest :=
        List.filter_cons_of_neg (by rw [hblank]; exact Bool.false_ne_true)
      calc solid (trimLine line)
          = solid ((trimLine line).takeWhile (!isspace ·) ++ c :: rest) := by rw [hsplit]
        _ = solid ((trimLine line).takeWhile (!isspace ·)) ++ solid (trimLine rest) := by
            rw [solid_append, hcons, solid_trimLine]
        _ = solid ((trimLine line).takeWhile (!isspace ·) ++ trimLine rest) :=
            (solid_append _ _).symm

theorem splitCommand_congr {split : Text × Option Text} (h : splitCommand line = some split)
    (h' : splitCommand line' = some split) : solid line = solid line' := by
  rw [solid_of_split h, solid_of_split h']

end Words

/-! ## 2. What was read -/

section Run
variable {program : OwnedProgram} {input : Text} {s t : DebuggerState program.count}
  {read buffer rest : Text}

theorem commandsIn_eq (text : Text) :
    commandsIn text =
      (text.splitOn '\n').dropLast.filterMap parseCommand ++ (parseCommand (lastLine text)).toList := by
  have hlast : [lastLine text].filterMap parseCommand = (parseCommand (lastLine text)).toList := by
    cases h : parseCommand (lastLine text) <;> simp [h]
  rw [commandsIn, ← hlast, ← List.filterMap_append, ← splitOn_eq_lines]

/-- The branch of a command reads nothing from the input. -/
theorem Dispatch.input_eq {command : DebuggerCommand} (h : Dispatch s command t) :
    t.input = s.input := by
  cases h <;> rfl

theorem continue_input (h : continueRound program s = .next t) : t.input = s.input := by
  rcases continue_cases h with ⟨_, hnext⟩ | ⟨_, _, hnext⟩ | ⟨_, _, hstep⟩
  · cases hnext
    rfl
  · cases hnext
    rfl
  · obtain ⟨vm, _, rfl⟩ := doStep_next hstep
    rfl

/-- What a round does to the input and to the commands: it reads a buffer at the prompt, and
changes neither in the loop of `continue`. -/
inductive InputEffect (s t : DebuggerState program.count) : Prop
  | reads {buffer rest : Text} : AtPrompt s → fgets debuggerLineSize s.input = some (buffer, rest) →
      t.input = rest →
      t.dispatched = s.dispatched ++ (parseCommand (cString buffer)).toList → InputEffect s t
  | keeps : t.input = s.input → t.dispatched = s.dispatched → InputEffect s t

theorem input_effect (h : debuggerStep program s = .next t) : InputEffect s t := by
  by_cases hcontinue : s.continuing = true
  · rw [continue_step hcontinue] at h
    exact .keeps (continue_input h) (continue_table h).1
  have hprompt : AtPrompt s := (Bool.not_eq_true _).mp hcontinue
  cases hfgets : fgets debuggerLineSize s.input with
  | none =>
    rw [debuggerStep, if_neg hcontinue, promptRound, readCommand, hfgets] at h
    cases h
  | some result =>
    obtain ⟨buffer, rest⟩ := result
    have hread : readCommand s.input = some (parseCommand (cString buffer), rest) := by
      rw [readCommand, hfgets]
      rfl
    cases hcommand : parseCommand (cString buffer) with
    | none =>
      rw [hcommand] at hread
      rw [prompt_blank hprompt hread] at h
      cases h
      exact .reads hprompt hfgets rfl (by rw [hcommand]; exact (List.append_nil _).symm)
    | some command =>
      rw [hcommand] at hread
      rw [prompt_step hprompt hread] at h
      have hdispatch := dispatch_cases h
      refine .reads hprompt hfgets hdispatch.input_eq ?_
      rw [hdispatch.table.1, hcommand]
      rfl

/-- What a call of `fgets` reads: a piece of the line, and the newline behind it when it is the
last one. -/
theorem buffer_spec (h : fgets debuggerLineSize s.input = some (buffer, rest)) : ∃ ending,
    buffer = pieceAt s.input ++ ending ∧ s.input = buffer ++ rest ∧
    (ending = ['\n'] ∨ ending = [] ∧ ((pieceAt s.input).length = pieceSize ∨ rest = [])) := by
  unfold fgets at h
  split at h
  · cases h
  · obtain ⟨ending, hbuffer, hinput, hending⟩ := fgetsFrom_spec pieceSize s.input
    have hread : fgetsFrom pieceSize s.input = (buffer, rest) := Option.some.inj h
    rw [hread] at hbuffer hinput hending
    exact ⟨ending, hbuffer, hinput, hending⟩

/-- A line that is read in two parts, one of them blank, is the command of the other part. -/
theorem parseCommand_append {front piece : Text}
    (hblank : (∀ c ∈ piece, isspace c = true) ∨ ∀ c ∈ front, isspace c = true) :
    (parseCommand (front ++ piece)).toList = (parseCommand front).toList ++ (parseCommand piece).toList := by
  have hnone : ∀ {text : Text}, (∀ c ∈ text, isspace c = true) → parseCommand text = none := by
    intro text htext
    rw [parseCommand_eq, splitCommand_eq_none_iff.mpr htext]
    rfl
  rcases hblank with hpiece | hfront
  · have hsplit := @splitCommand_around [] piece nofun hpiece front
    rw [List.nil_append] at hsplit
    rw [hnone hpiece, parseCommand_eq, hsplit, ← parseCommand_eq]
    exact (List.append_nil _).symm
  · have hsplit := @splitCommand_around front [] hfront nofun piece
    rw [List.append_nil] at hsplit
    rw [hnone hfront, parseCommand_eq, hsplit, ← parseCommand_eq]
    rfl

/-- Reading one more piece of a line: either it is blank, or it is the command of its line. -/
theorem commandsIn_append {piece ending : Text} (hpiece : ∀ c ∈ piece, c ≠ '\n')
    (hending : ending = ['\n'] ∨ ending = [])
    (hblank : (∀ c ∈ piece, isspace c = true) ∨ ∀ c ∈ lastLine read, isspace c = true) :
    commandsIn (read ++ (piece ++ ending)) = commandsIn read ++ (parseCommand piece).toList := by
  have hfree : ∀ c ∈ piece, (c == '\n') = false := fun c hc => beq_eq_false_iff_ne.mpr (hpiece c hc)
  have hnil : [([] : Text)].filterMap parseCommand = [] := rfl
  -- behind the piece there is at most one more line, and it is empty
  have hlines : ∃ lines : List Text, (piece ++ ending).splitOn '\n' = piece :: lines ∧
      lines.filterMap parseCommand = [] := by
    rcases hending with rfl | rfl
    · refine ⟨[[]], ?_, hnil⟩
      rw [List.splitOn_eq_splitOnP, List.splitOnP_append_cons_of_forall_mem hfree '\n' rfl,
        List.splitOnP_nil]
    · refine ⟨[], ?_, rfl⟩
      rw [List.append_nil, List.splitOn_eq_splitOnP, List.splitOnP_eq_singleton hfree]
  obtain ⟨lines, hsplit, hlines⟩ := hlines
  have hlast : (read.splitOn '\n').getLastD [] = lastLine read := rfl
  rw [commandsIn_eq read, commandsIn, splitOn_append, hsplit, hlast, List.headD_cons, List.tail_cons,
    List.append_assoc, ← parseCommand_append hblank, List.filterMap_append, List.filterMap_cons]
  cases parseCommand (lastLine read ++ piece) <;> simp [hlines]

theorem cString_of_free {text : Text} (h : Char.ofNat 0 ∉ text) : cString text = text := by
  refine List.takeWhile_eq_self_iff.mpr fun c hc => ?_
  rw [bne_iff_ne]
  rintro rfl
  exact h hc

theorem newline_free (input : Text) : ∀ c ∈ pieceAt input, c ≠ '\n' := by
  intro c hc
  have hline := List.mem_takeWhile_imp (List.mem_of_mem_take hc)
  exact bne_iff_ne.mp hline

/-- What is dispatched of a buffer is the command of the piece that is in it. -/
theorem splitCommand_buffer {ending : Text} (hnul : Char.ofNat 0 ∉ s.input)
    (hbuffer : buffer = pieceAt s.input ++ ending) (hsplit : s.input = buffer ++ rest)
    (hending : ending = ['\n'] ∨ ending = []) :
    splitCommand (cString buffer) = splitCommand (pieceAt s.input) := by
  have hblank : ∀ c ∈ ending, isspace c = true := by
    rcases hending with rfl | rfl
    · exact List.forall_mem_singleton.mpr rfl
    · exact nofun
  have hfree : Char.ofNat 0 ∉ buffer := fun hmem =>
    hnul (hsplit ▸ List.mem_append_left _ hmem)
  rw [cString_of_free hfree, hbuffer]
  exact @splitCommand_around [] ending nofun hblank (pieceAt s.input)

/-- As long as each line has one piece that is not blank, the commands dispatched are those of the
text that was read. -/
theorem read_so_far (hnul : Char.ofNat 0 ∉ input) (h : OnePiecePerLine program input)
    (hreach : DebuggerReaches program input s) :
    ∃ read, input = read ++ s.input ∧ s.dispatched = commandsIn read := by
  have hinv := Machine.reaches_invariant (I := fun s : DebuggerState program.count =>
    DebuggerReaches program input s ∧ ∃ read, input = read ++ s.input ∧ s.dispatched = commandsIn read)
    ?_ hreach ⟨Machine.reaches_refl _, [], rfl, rfl⟩
  · exact hinv.2
  rintro s t ⟨hs, read, hposition, hdispatched⟩ hstep
  refine ⟨Machine.reaches_step hs hstep, ?_⟩
  cases input_effect hstep with
  | keeps hinput hsame => exact ⟨read, hinput ▸ hposition, hsame.trans hdispatched⟩
  | @reads buffer rest hprompt hfgets hinput hdispatch =>
    obtain ⟨ending, hbuffer, hsplit, hending⟩ := buffer_spec hfgets
    have hending := hending.imp_right And.left
    have hnul' : Char.ofNat 0 ∉ s.input := fun hmem =>
      hnul (hposition ▸ List.mem_append_right _ hmem)
    refine ⟨read ++ buffer, ?_, ?_⟩
    · rw [hposition, hsplit, hinput, List.append_assoc]
    have hblank : (∀ c ∈ pieceAt s.input, isspace c = true) ∨ ∀ c ∈ lastLine read, isspace c = true := by
      by_cases hpiece : ∃ c ∈ buffer, isspace c = false
      · exact .inr (h s read buffer rest ⟨hs, hprompt, hposition, hfgets⟩ hpiece).1
      · refine .inl fun c hc => Bool.of_not_eq_false fun hsolid => hpiece ⟨c, ?_, hsolid⟩
        exact hbuffer ▸ List.mem_append_left _ hc
    rw [hdispatch, hdispatched, parseCommand_eq, splitCommand_buffer hnul' hbuffer hsplit hending,
      ← parseCommand_eq, hbuffer]
    exact (commandsIn_append (newline_free _) hending hblank).symm

end Run

/-! ## 3. When a line is one command -/

section Lines
variable {program : OwnedProgram} {input : Text}

/-- A line with one piece that is not blank is the command of this piece. -/
theorem one_command_of_onePiece (hnul : Char.ofNat 0 ∉ input) (h : OnePiecePerLine program input) :
    OneCommandPerLine program input := by
  constructor
  · intro s read buffer rest split hreads hsplit
    obtain ⟨ending, hbuffer, hinput, hending⟩ := buffer_spec hreads.buffer_eq
    have hnul' : Char.ofNat 0 ∉ s.input := fun hmem =>
      hnul (hreads.position ▸ List.mem_append_right _ hmem)
    rw [splitCommand_buffer hnul' hbuffer hinput (hending.imp_right And.left)] at hsplit
    -- the piece is not blank, so the rest of the line is
    have hsolid : ∃ c ∈ buffer, isspace c = false := by
      by_contra hblank
      have hpiece : ∀ c ∈ pieceAt s.input, isspace c = true := fun c hc =>
        Bool.of_not_eq_false fun hc' => hblank ⟨c, hbuffer ▸ List.mem_append_left _ hc, hc'⟩
      rw [splitCommand_eq_none_iff.mpr hpiece] at hsplit
      cases hsplit
    obtain ⟨hbefore, hbehind⟩ := h s read buffer rest hreads hsolid
    constructor
    · obtain ⟨read', hposition, hdispatched⟩ := read_so_far hnul h hreads.reached
      obtain rfl : read = read' := List.append_cancel_right (hreads.position.symm.trans hposition)
      have hnone : parseCommand (lastLine read) = none := by
        rw [parseCommand_eq, splitCommand_eq_none_iff.mpr hbefore]
        rfl
      rw [hdispatched, commandsIn_eq, hnone]
      exact List.append_nil _
    · have hline := splitCommand_around hbefore hbehind (pieceAt s.input)
      rw [pieceAt, List.append_assoc, List.take_append_drop] at hline
      rw [hline]
      exact hsplit
  · intro s hreach _ hend
    obtain ⟨read, hposition, hdispatched⟩ := read_so_far hnul h hreach
    rw [hend, List.append_nil] at hposition
    rw [hdispatched, hposition]

/-- A line that is the command of one of its pieces is blank around it. -/
theorem onePiece_of_one_command (hnul : Char.ofNat 0 ∉ input) (h : OneCommandPerLine program input) :
    OnePiecePerLine program input := by
  intro s read buffer rest hreads hsolid
  obtain ⟨ending, hbuffer, hinput, hending⟩ := buffer_spec hreads.buffer_eq
  have hnul' : Char.ofNat 0 ∉ s.input := fun hmem =>
    hnul (hreads.position ▸ List.mem_append_right _ hmem)
  have hcommand := splitCommand_buffer hnul' hbuffer hinput (hending.imp_right And.left)
  cases hsplit : splitCommand (pieceAt s.input) with
  | none =>
    -- all of the buffer is blank then, the newline included
    have hblank := splitCommand_eq_none_iff.mp hsplit
    obtain ⟨c, hc, hc'⟩ := hsolid
    rw [hbuffer] at hc
    rcases List.mem_append.mp hc with hc | hc
    · rw [hblank c hc] at hc'
      cases hc'
    · rcases hending with rfl | ⟨rfl, _⟩
      · cases List.mem_singleton.mp hc
        cases hc'
      · cases hc
  | some split =>
    obtain ⟨_, hline⟩ := h.dispatch s read buffer rest split hreads (hcommand.trans hsplit)
    have hsame := splitCommand_congr hline hsplit
    have htake : s.input.takeWhile (· != '\n') =
        pieceAt s.input ++ (s.input.takeWhile (· != '\n')).drop pieceSize :=
      (List.take_append_drop _ _).symm
    rw [htake, solid_append, solid_append] at hsame
    have hlength := congrArg List.length hsame
    rw [List.length_append, List.length_append] at hlength
    constructor
    · exact solid_eq_nil_iff.mp (List.length_eq_zero_iff.mp (by omega))
    · exact solid_eq_nil_iff.mp (List.length_eq_zero_iff.mp (by omega))

/-- Every line is one command exactly when no two pieces of a line that is read have something
other than blanks in them. -/
theorem one_command_per_line_iff (program : OwnedProgram) (input : Text)
    (hnul : Char.ofNat 0 ∉ input) :
    OneCommandPerLine program input ↔ OnePiecePerLine program input :=
  ⟨onePiece_of_one_command hnul, one_command_of_onePiece hnul⟩

end Lines

/-- `q`, and 300 blanks behind it. -/
def quitLine : Text :=
  'q' :: (List.replicate 300 ' ' ++ ['\n'])

/-- A line of two pieces, the second one blank. The debugger quits at the first one. -/
theorem one_command_per_line_iff_quit :
    Char.ofNat 0 ∉ quitLine ∧ OneCommandPerLine waiProgramInit quitLine := by
  have hnul : Char.ofNat 0 ∉ quitLine := by decide
  have hquits : debuggerStep waiProgramInit (debuggerStart waiProgramInit quitLine) =
      .done (.returned .ok [.banner, .prompt]) := rfl
  refine ⟨hnul, (one_command_per_line_iff waiProgramInit quitLine hnul).mpr ?_⟩
  intro s read buffer rest hreads _
  obtain ⟨n, hn⟩ := hreads.reached
  obtain rfl : n = 0 := Nat.le_zero.mp (Machine.reachesIn_le_of_done rfl hquits hn)
  cases hn
  obtain rfl : read = [] := List.self_eq_append_left.mp hreads.position
  refine ⟨nofun, fun c hc => ?_⟩
  have hbehind : c ∈ (List.replicate 300 ' ' ++ ['\n']).takeWhile (· != '\n') :=
    List.mem_of_mem_drop (i := 254) hc
  rcases List.mem_append.mp ((List.takeWhile_subset _) hbehind) with hblank | hend
  · rw [List.eq_of_mem_replicate hblank]
    rfl
  · rw [List.mem_singleton.mp hend]
    rfl

/-! ## 4. Short lines -/

section Short
variable {program : OwnedProgram} {input : Text} {s : DebuggerState program.count} {text piece : Text}

theorem lastLine_append (text : Text) (h : ∀ c ∈ piece, c ≠ '\n') :
    lastLine (text ++ piece) = lastLine text ++ piece := by
  induction piece using List.reverseRecOn with
  | nil => rw [List.append_nil, List.append_nil]
  | append_singleton front c ih =>
    rw [List.forall_mem_append, List.forall_mem_singleton] at h
    rw [← List.append_assoc, lastLine_concat, if_neg h.2, ih h.1, List.append_assoc]

/-- In the middle of a line, whole buffers were read of it. -/
theorem pieces_aligned (hreach : DebuggerReaches program input s) :
    ∃ read, input = read ++ s.input ∧ (pieceSize ∣ (lastLine read).length ∨ s.input = []) := by
  refine Machine.reaches_invariant (I := fun s : DebuggerState program.count =>
    ∃ read, input = read ++ s.input ∧ (pieceSize ∣ (lastLine read).length ∨ s.input = []))
    ?_ hreach ⟨[], rfl, .inl (Nat.dvd_zero _)⟩
  rintro s t ⟨read, hposition, haligned⟩ hstep
  cases input_effect hstep with
  | keeps hinput _ => exact ⟨read, hinput ▸ hposition, hinput ▸ haligned⟩
  | @reads buffer rest _ hfgets hinput _ =>
    obtain ⟨ending, hbuffer, hsplit, hending⟩ := buffer_spec hfgets
    refine ⟨read ++ buffer, ?_, ?_⟩
    · rw [hposition, hsplit, hinput, List.append_assoc]
    rw [hbuffer, hinput]
    rcases hending with rfl | ⟨rfl, hfull | hend⟩
    · rw [← List.append_assoc, lastLine_concat, if_pos rfl]
      exact .inl (Nat.dvd_zero _)
    · rcases haligned with haligned | hnil
      · rw [List.append_nil, lastLine_append read (newline_free s.input), List.length_append, hfull]
        exact .inl (Nat.dvd_add haligned (Nat.dvd_refl _))
      · rw [fgets, if_pos hnil] at hfgets
        cases hfgets
    · exact .inr hend

/-- Lines of at most 255 characters are one command each. -/
theorem one_command_of_short (hnul : Char.ofNat 0 ∉ input)
    (hshort : ∀ line ∈ input.splitOn '\n', line.length ≤ pieceSize) :
    OneCommandPerLine program input := by
  refine one_command_of_onePiece hnul ?_
  intro s read buffer rest hreads hsolid
  obtain ⟨ending, hbuffer, _, hending⟩ := buffer_spec hreads.buffer_eq
  have hline : (lastLine read ++ s.input.takeWhile (· != '\n')).length ≤ pieceSize := by
    refine hshort _ ?_
    rw [hreads.position, splitOn_append, headD_splitOn]
    exact List.mem_append_right _ List.mem_cons_self
  rw [List.length_append] at hline
  obtain ⟨read', hposition, haligned⟩ := pieces_aligned hreads.reached
  obtain rfl : read = read' := List.append_cancel_right (hreads.position.symm.trans hposition)
  have hdvd : pieceSize ∣ (lastLine read).length := by
    refine haligned.resolve_right fun hnil => ?_
    have hfgets := hreads.buffer_eq
    rw [fgets, if_pos hnil] at hfgets
    cases hfgets
  rcases Nat.eq_zero_or_pos (lastLine read).length with hzero | hpos
  · -- the line begins with this buffer and fits in it
    rw [List.length_eq_zero_iff.mp hzero, List.drop_eq_nil_of_le (by omega)]
    exact ⟨nofun, nofun⟩
  · -- a whole buffer was read of the line, and nothing is left of it
    have hnil : s.input.takeWhile (· != '\n') = [] := by
      have hle := Nat.le_of_dvd hpos hdvd
      exact List.length_eq_zero_iff.mp (by omega)
    rw [pieceAt, hnil, List.take_nil, List.nil_append] at hbuffer
    obtain ⟨c, hc, hc'⟩ := hsolid
    rcases hending with rfl | ⟨rfl, _⟩
    · cases List.mem_singleton.mp (hbuffer ▸ hc)
      cases hc'
    · cases hbuffer ▸ hc

end Short

/-! ## 5. A long line -/

/-- 255 times `x`, and `q`. -/
def longLine : Text :=
  List.replicate pieceSize 'x' ++ ['q', '\n']

theorem fgetsFrom_replicate (n : Nat) (rest : Text) :
    fgetsFrom n (List.replicate n 'x' ++ rest) = (List.replicate n 'x', rest) := by
  induction n with
  | zero => rfl
  | succ n ih =>
    rw [List.replicate_succ, List.cons_append, fgetsFrom, if_neg (by decide), ih]

/-- The `q` at the end of an unknown command is a command of its own, and quits. -/
theorem long_line_split :
    Char.ofNat 0 ∉ longLine ∧ ¬ OneCommandPerLine waiProgramInit longLine := by
  have hnul : Char.ofNat 0 ∉ longLine := by
    intro hmem
    rcases List.mem_append.mp hmem with hmem | hmem
    · cases List.eq_of_mem_replicate hmem
    · revert hmem
      decide
  refine ⟨hnul, fun h => ?_⟩
  have hreads : Reads waiProgramInit longLine (debuggerStart waiProgramInit longLine) []
      (List.replicate pieceSize 'x') ['q', '\n'] := by
    refine ⟨Machine.reaches_refl _, rfl, rfl, ?_⟩
    show fgets debuggerLineSize longLine = _
    rw [fgets, if_neg (by simp [longLine])]
    exact congrArg some (fgetsFrom_replicate pieceSize ['q', '\n'])
  have hline : longLine.takeWhile (· != '\n') = List.replicate pieceSize 'x' ++ ['q'] := by
    rw [longLine, List.takeWhile_append_of_pos]
    · rfl
    · intro c hc
      rw [List.eq_of_mem_replicate hc]
      rfl
  obtain ⟨_, hbehind⟩ := onePiece_of_one_command hnul h _ _ _ _ hreads
    ⟨'x', List.mem_replicate.mpr ⟨by decide, rfl⟩, rfl⟩
  have hq : 'q' ∈ (longLine.takeWhile (· != '\n')).drop pieceSize := by
    rw [hline, List.drop_left' List.length_replicate]
    exact List.mem_singleton_self 'q'
  cases hbehind 'q' hq

end Waivm
