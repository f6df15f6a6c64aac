import Waivm.Lib.EscapeText
import Waivm.TuiApp

/-!
# The screen of the terminal UI (`ui.rs`)

`write_at` cuts every text to the width of its box with `truncate_ansi_safe`, which counts
the characters that can be seen with `visible_len`. The two have loops of their own:
`visible_len` keeps a flag, `truncate_ansi_safe` copies an escape sequence in an inner loop.

Results:
1. `visibleLen_eq`: `visible_len` counts what the scanner of escape sequences lets be seen.
2. `truncate_cut`: a text that does not fit is cut before the last character that would fit.
3. `truncate_exact`: the length of a truncated text, its form, and that truncating it again
   changes nothing; `visible_truncate` says which characters of it can be seen.
4. `drawOutput_rows`: what `draw_output` writes.
-/

namespace Waivm.Tui

open CString
open EscapeText

/-! ## Truncation -/

/-- The loop of `visible_len`. -/
def visibleLenFrom : (count : Nat) → (inEscape : Bool) → Text → Nat
  | count, _, [] => count
  | count, inEscape, ch :: chars =>
    if ch = '\x1b' then visibleLenFrom count true chars
    else if inEscape then
      if ch = 'm' then visibleLenFrom count false chars else visibleLenFrom count inEscape chars
    else visibleLenFrom (count + 1) inEscape chars

/-- `visible_len` -/
def visibleLen (text : Text) : Nat :=
  visibleLenFrom 0 false text

/-- The inner loop of `truncate_ansi_safe`: `result`, and the characters that are left. -/
def copyEscape : (result : Text) → (chars : Text) → Text × Text
  | result, [] => (result, [])
  | result, next :: chars =>
    if next = 'm' then (result ++ [next], chars) else copyEscape (result ++ [next]) chars

theorem length_copyEscape (result chars : Text) :
    (copyEscape result chars).2.length ≤ chars.length := by
  induction chars generalizing result with
  | nil => exact Nat.le_refl 0
  | cons next chars ih =>
    rw [copyEscape]
    split
    · exact Nat.le_succ _
    · exact Nat.le_succ_of_le (ih _)

/-- The outer loop of `truncate_ansi_safe`. -/
def truncateFrom (width : Nat) (result : Text) (visible : Nat) : (chars : Text) → Text
  | [] => result
  | ch :: chars =>
    if ch = '\x1b' then
      truncateFrom width (copyEscape (result ++ [ch]) chars).1 visible
        (copyEscape (result ++ [ch]) chars).2
    else if visible + 1 ≥ width then result ++ ['…']
    else truncateFrom width (result ++ [ch]) (visible + 1) chars
termination_by chars => chars.length
decreasing_by
  · exact Nat.lt_succ_of_le (length_copyEscape _ _)
  · exact Nat.lt_succ_self _

/-- `truncate_ansi_safe` -/
def truncateAnsiSafe (text : Text) (width : Nat) : Text :=
  if visibleLen text ≤ width then text else truncateFrom width [] 0 text

/-- The sequences that both functions skip: from an escape character to an `m`. -/
def ansi : Escapes Char where
  esc := '\x1b'
  final := (· == 'm')
  final_esc := by decide

/-- A text ends inside of an escape sequence: no `m` is behind the escape character. -/
def EndsInEscape (text : Text) : Prop :=
  ∃ front rest, text = front ++ '\x1b' :: rest ∧ 'm' ∉ rest

section Truncate
variable {text chars result : Text} {width visible : Nat}

theorem visibleLenFrom_eq (count : Nat) (inEscape : Bool) (text : Text) :
    visibleLenFrom count inEscape text = count + (ansi.visible inEscape text).length := by
  induction text generalizing count inEscape with
  | nil => rfl
  | cons ch chars ih =>
    rw [visibleLenFrom]
    by_cases hesc : ch = '\x1b'
    · subst hesc
      rw [if_pos rfl, ih]
      exact congrArg (count + List.length ·) (visible_esc (e := ansi) inEscape chars).symm
    rw [if_neg hesc]
    cases inEscape with
    | false =>
      rw [if_neg Bool.false_ne_true, ih, visible_outside (e := ansi) hesc, List.length_cons,
        Nat.add_right_comm, Nat.add_assoc]
    | true =>
      rw [if_pos rfl, visible_inside]
      by_cases hfinal : ch = 'm'
      · rw [if_pos hfinal, ih, after_final (e := ansi) (beq_iff_eq.mpr hfinal)]
      · rw [if_neg hfinal, ih, after_inside (e := ansi) (beq_eq_false_iff_ne.mpr hfinal)]

/-- `visible_len` counts the characters that can be seen. -/
theorem visibleLen_eq (text : Text) : visibleLen text = (ansi.visible false text).length :=
  (visibleLenFrom_eq 0 false text).trans (Nat.zero_add _)

theorem endsInEscape_iff : EndsInEscape text ↔ ansi.inside false text = true := by
  have hfinal : ∀ rest : Text, 'm' ∉ rest ↔ ∀ c ∈ rest, ansi.final c = false := by
    intro rest
    constructor
    · intro hm c hc
      refine beq_eq_false_iff_ne.mpr ?_
      rintro rfl
      exact hm hc
    · intro h hm
      cases h 'm' hm
  rw [inside_iff]
  simp only [Bool.false_eq_true, false_and, false_or, ← hfinal]
  rfl

/-- The inner loop copies a piece of the text that cannot be seen, and stops behind the end of
the sequence, or with nothing left. -/
theorem copyEscape_spec (result chars : Text) :
    ∃ piece, chars = piece ++ (copyEscape result chars).2 ∧
      (copyEscape result chars).1 = result ++ piece ∧ ansi.visible true piece = [] ∧
      (ansi.inside true piece = false ∨ (copyEscape result chars).2 = []) := by
  induction chars generalizing result with
  | nil => exact ⟨[], rfl, (List.append_nil result).symm, rfl, .inr rfl⟩
  | cons next chars ih =>
    rw [copyEscape]
    by_cases hfinal : next = 'm'
    · rw [if_pos hfinal]
      have hafter : ansi.after true next = false := after_final (beq_iff_eq.mpr hfinal)
      refine ⟨[next], rfl, rfl, ?_, .inl hafter⟩
      rw [visible_inside, hafter]
      rfl
    · rw [if_neg hfinal]
      have hafter : ansi.after true next = true :=
        after_inside (beq_eq_false_iff_ne.mpr hfinal)
      obtain ⟨piece, hchars, hresult, hvisible, hend⟩ := ih (result ++ [next])
      refine ⟨next :: piece, congrArg (next :: ·) hchars, ?_, ?_, ?_⟩
      · rw [hresult, List.append_assoc, List.singleton_append]
      · rw [visible_inside, hafter, hvisible]
      · rw [Escapes.inside, hafter]
        exact hend

/-- The outer loop stops before the character that is the `width`-th one to be seen. -/
theorem truncateFrom_cut (result : Text) (hvisible : visible < width)
    (hlong : width ≤ visible + (ansi.visible false chars).length) :
    ∃ front c back, Cut ansi chars (width - 1 - visible) front c back ∧
      truncateFrom width result visible chars = result ++ front ++ ['…'] := by
  fun_induction truncateFrom width result visible chars with
  | case1 result visible => exact absurd hlong (Nat.not_le.mpr hvisible)
  | case2 result visible chars ih =>
    obtain ⟨piece, hchars, hresult, hpiece, hend⟩ := copyEscape_spec (result ++ ['\x1b']) chars
    have hseen : ansi.visible false ('\x1b' :: chars) =
        ansi.visible (ansi.inside true piece) (copyEscape (result ++ ['\x1b']) chars).2 := by
      refine (visible_esc (e := ansi) false chars).trans ?_
      rw [congrArg (ansi.visible true) hchars, visible_append, hpiece, List.nil_append]
    rcases hend with hend | hend
    · rw [hseen, hend] at hlong
      obtain ⟨front, c, back, hcut, heq⟩ := ih hvisible hlong
      have hprepend := hcut.prepend (j := 0) ('\x1b' :: piece) hend
        (congrArg List.length ((visible_esc (e := ansi) false piece).trans hpiece))
      rw [List.cons_append, ← hchars, Nat.zero_add] at hprepend
      refine ⟨'\x1b' :: piece ++ front, c, back, hprepend, ?_⟩
      rw [heq, hresult]
      simp only [List.append_assoc, List.cons_append, List.nil_append]
    · -- the sequence never ends, so nothing more can be seen
      rw [hseen, hend] at hlong
      exact absurd hlong (Nat.not_le.mpr hvisible)
  | case3 result visible ch chars hesc hfull =>
    have hzero : width - 1 - visible = 0 := by omega
    rw [hzero]
    exact ⟨[], ch, chars, .here hesc chars, by rw [List.append_nil]⟩
  | case4 result visible ch chars hesc hfull ih =>
    have hlong' : width ≤ visible + 1 + (ansi.visible false chars).length := by
      rw [visible_outside (e := ansi) hesc, List.length_cons] at hlong
      omega
    obtain ⟨front, c, back, hcut, heq⟩ := ih (Nat.not_le.mp hfull) hlong'
    have hprepend := hcut.prepend (j := 1) [ch] (after_outside (e := ansi) hesc)
      (congrArg List.length (visible_outside (e := ansi) hesc []))
    have hcount : 1 + (width - 1 - (visible + 1)) = width - 1 - visible := by omega
    rw [hcount] at hprepend
    refine ⟨ch :: front, c, back, hprepend, ?_⟩
    rw [heq]
    simp only [List.append_assoc, List.cons_append, List.nil_append]

/-- A text that does not fit is cut before the last character that would fit, and an ellipsis
stands in the place of that character. -/
theorem truncate_cut (h : 1 ≤ width) (hlong : width < visibleLen text) :
    ∃ front c back, Cut ansi text (width - 1) front c back ∧
      truncateAnsiSafe text width = front ++ ['…'] := by
  rw [truncateAnsiSafe, if_neg (Nat.not_le.mpr hlong)]
  rw [visibleLen_eq] at hlong
  exact truncateFrom_cut [] h ((Nat.zero_add _).symm ▸ hlong.le)

/-- Of a text that does not fit, the first characters can be seen, and the ellipsis. -/
theorem visible_truncate (h : 1 ≤ width) (hlong : width < visibleLen text) :
    ansi.visible false (truncateAnsiSafe text width) =
      (ansi.visible false text).take (width - 1) ++ ['…'] := by
  obtain ⟨front, c, back, hcut, heq⟩ := truncate_cut h hlong
  rw [heq, hcut.visible_mark (by decide), hcut.visible_front]

theorem visibleLen_truncate (h : 1 ≤ width) :
    visibleLen (truncateAnsiSafe text width) = min (visibleLen text) width := by
  rcases Nat.lt_or_ge width (visibleLen text) with hlong | hfits
  · have hseen := visible_truncate h hlong
    rw [visibleLen_eq] at hlong
    rw [visibleLen_eq, visibleLen_eq, hseen, List.length_append, List.length_take,
      List.length_singleton]
    omega
  · rw [truncateAnsiSafe, if_pos hfits, Nat.min_eq_left hfits]

/-- Truncation is exact: a truncated text has as many characters that can be seen as fit; a text
that does not fit becomes a prefix of it with one ellipsis, outside of an escape sequence;
and truncating again changes nothing. -/
theorem truncate_exact (text : Text) {width : Nat} (h : 1 ≤ width) :
    visibleLen (truncateAnsiSafe text width) = min (visibleLen text) width ∧
    (width < visibleLen text → ∃ front, front <+: text ∧
      truncateAnsiSafe text width = front ++ ['…'] ∧ ¬ EndsInEscape (truncateAnsiSafe text width)) ∧
    truncateAnsiSafe (truncateAnsiSafe text width) width = truncateAnsiSafe text width := by
  refine ⟨visibleLen_truncate h, fun hlong => ?_, ?_⟩
  · obtain ⟨front, c, back, hcut, heq⟩ := truncate_cut h hlong
    refine ⟨front, ⟨c :: back, hcut.text_eq.symm⟩, heq, ?_⟩
    rw [heq, endsInEscape_iff, hcut.inside_mark (by decide)]
    exact Bool.false_ne_true
  · have hfits : visibleLen (truncateAnsiSafe text width) ≤ width :=
      visibleLen_truncate h ▸ Nat.min_le_right _ _
    exact if_pos hfits

end Truncate

/-- A bold `b` between other characters. -/
def boldText : Text :=
  ['a', '\x1b', '[', '1', 'm', 'b', '\x1b', '[', '0', 'm', 'c', 'd']

/-- The text has four characters that can be seen; three of them fit. -/
theorem truncate_exact_bold :
    3 < visibleLen boldText ∧ visibleLen (truncateAnsiSafe boldText 3) = min (visibleLen boldText) 3 ∧
      ∃ front, front <+: boldText ∧ truncateAnsiSafe boldText 3 = front ++ ['…'] ∧
        ¬ EndsInEscape (truncateAnsiSafe boldText 3) := by
  obtain ⟨hlength, hform, _⟩ := @truncate_exact boldText 3 (by decide)
  have hlong : 3 < visibleLen boldText := by decide
  exact ⟨hlong, hlength, hform hlong⟩

/-! ## The output -/

/-- `RESET` -/
def reset : Text := "\x1b[0m".toList

/-- `CYAN` -/
def cyan : Text := "\x1b[36m".toList

/-- `GREEN` -/
def green : Text := "\x1b[32m".toList

/-- `YELLOW` -/
def yellow : Text := "\x1b[33m".toList

/-- `RED` -/
def red : Text := "\x1b[31m".toList

/-- `write_at` -/
def writeAt (out : Text) (row col : Nat) (text : Text) (width : Nat) : Text :=
  out ++ ("\x1b[".toList ++ Printf.unsigned 10 row ++ [';'] ++ Printf.unsigned 10 col ++ ['H']) ++
    truncateAnsiSafe text width ++ reset

/-- `style_output_line` -/
def styleOutputLine (line : Text) : Text :=
  if "$".toList <+: line then cyan ++ line ++ reset
  else if "error:".toList <+: line ∨ "failed".toList <:+: line then red ++ line ++ reset
  else if "exit code".toList <+: line then yellow ++ line ++ reset
  else if "stdout:".toList <+: line then green ++ line ++ reset
  else if "stderr:".toList <+: line then red ++ line ++ reset
  else line

section Output
variable {PathBuf : Type} (app : App PathBuf)

/-- The first line that `draw_output` shows. -/
def outputStart : Nat :=
  min app.scroll (app.output.length - 1)

/-- `draw_output` -/
def drawOutput (out : Text) (y x h w : Nat) : Text :=
  if app.output = [] then writeAt out y x "output is empty".toList w
  else
    (List.range h).foldl (fun out row =>
      match app.output[outputStart app + row]? with
      | some line => writeAt out (y + row) x (styleOutputLine line) w
      | none => out) out

theorem writeAt_append (out : Text) (row col : Nat) (text : Text) (width : Nat) :
    writeAt out row col text width = out ++ writeAt [] row col text width := by
  simp only [writeAt, List.nil_append, List.append_assoc]

/-- The rows that are drawn are the lines from the first one on, as many as there is room for. -/
theorem drawOutput_rows {app : App PathBuf} (hne : app.output ≠ []) (out : Text) (y x h w : Nat) :
    drawOutput app out y x h w =
      out ++ ((app.output.drop (outputStart app)).take h).zipIdx.flatMap fun line =>
        writeAt [] (y + line.2) x (styleOutputLine line.1) w := by
  rw [drawOutput, if_neg hne]
  induction h with
  | zero => exact (List.append_nil out).symm
  | succ h ih =>
    rw [List.range_succ, List.foldl_append, ih, List.foldl_cons, List.foldl_nil, List.take_add_one,
      List.getElem?_drop]
    cases hline : app.output[outputStart app + h]? with
    | none => rw [Option.toList_none, List.append_nil]
    | some line =>
      have hlen : ((app.output.drop (outputStart app)).take h).length = h := by
        obtain ⟨hlt, _⟩ := List.getElem?_eq_some_iff.mp hline
        rw [List.length_take, List.length_drop]
        omega
      rw [Option.toList_some, List.zipIdx_append, hlen, List.flatMap_append, ← List.append_assoc,
        Nat.zero_add]
      exact (writeAt_append _ _ _ _ _).trans (congrArg _ (List.flatMap_singleton _ _).symm)

end Output

end Waivm.Tui
