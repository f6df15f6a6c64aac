import Mathlib

/-!
# Texts with escape sequences

A text over any alphabet, in which one character begins an escape sequence and the
first character of some kind behind it ends the sequence. What is in a sequence cannot
be seen. A sequence may never end, and another beginning inside it changes nothing.

Results:
1. `visible_append`, `inside_append`: a text is scanned piece by piece.
2. `inside_iff`: a text ends in a sequence when one begins behind which nothing ends it.
3. `Cut.visible_front`, `Cut.inside_mark`: a text that is cut before a visible
   character shows the visible characters before it, and ends outside of a sequence.
-/

namespace EscapeText

/-- How escape sequences are written. -/
structure Escapes (α : Type*) where
  esc : α
  final : α → Bool
  final_esc : final esc = false

variable {α : Type*} [DecidableEq α]

/-- Whether the text behind `c` is in a sequence. -/
def Escapes.after (e : Escapes α) (inside : Bool) (c : α) : Bool :=
  c = e.esc || inside && !e.final c

/-- Whether the text behind a piece is in a sequence. -/
def Escapes.inside (e : Escapes α) : Bool → List α → Bool
  | inside, [] => inside
  | inside, c :: rest => e.inside (e.after inside c) rest

/-- The characters of a piece that can be seen. -/
def Escapes.visible (e : Escapes α) : Bool → List α → List α
  | _, [] => []
  | inside, c :: rest =>
    if c = e.esc ∨ inside = true then e.visible (e.after inside c) rest
    else c :: e.visible (e.after inside c) rest

/-- The text is `front`, with `k` characters that can be seen, and then a further one. -/
structure Cut (e : Escapes α) (text : List α) (k : Nat) (front : List α) (c : α) (back : List α) :
    Prop where
  text_eq : text = front ++ c :: back
  length_visible : (e.visible false front).length = k
  outside : e.inside false front = false
  ne_esc : c ≠ e.esc

section Scan
variable {e : Escapes α} {inside : Bool} {text front back : List α} {k j : Nat} {c : α}

theorem after_esc (inside : Bool) : e.after inside e.esc = true := by
  rw [Escapes.after, decide_eq_true rfl, Bool.true_or]

theorem after_outside (h : c ≠ e.esc) : e.after false c = false := by
  rw [Escapes.after, decide_eq_false h, Bool.false_or, Bool.false_and]

theorem after_final (h : e.final c = true) : e.after inside c = false := by
  have hc : c ≠ e.esc := by
    rintro rfl
    exact Bool.false_ne_true (e.final_esc.symm.trans h)
  rw [Escapes.after, decide_eq_false hc, h, Bool.not_true, Bool.and_false, Bool.false_or]

theorem after_inside (h : e.final c = false) : e.after true c = true := by
  rw [Escapes.after, h, Bool.not_false, Bool.and_true, Bool.or_true]

theorem inside_append (inside : Bool) (text back : List α) :
    e.inside inside (text ++ back) = e.inside (e.inside inside text) back := by
  induction text generalizing inside with
  | nil => rfl
  | cons c rest ih => exact ih (e.after inside c)

theorem visible_append (inside : Bool) (text back : List α) :
    e.visible inside (text ++ back) =
      e.visible inside text ++ e.visible (e.inside inside text) back := by
  induction text generalizing inside with
  | nil => rfl
  | cons c rest ih =>
    rw [List.cons_append, Escapes.visible, Escapes.visible, ih, Escapes.inside]
    split
    · rfl
    · rfl

theorem visible_esc (inside : Bool) (rest : List α) :
    e.visible inside (e.esc :: rest) = e.visible true rest := by
  rw [Escapes.visible, if_pos (.inl rfl), after_esc]

theorem visible_inside (c : α) (rest : List α) :
    e.visible true (c :: rest) = e.visible (e.after true c) rest := by
  rw [Escapes.visible, if_pos (.inr rfl)]

theorem visible_outside (h : c ≠ e.esc) (rest : List α) :
    e.visible false (c :: rest) = c :: e.visible false rest := by
  rw [Escapes.visible, if_neg (not_or.mpr ⟨h, Bool.false_ne_true⟩), after_outside h]

/-- A sequence goes on while nothing ends it. -/
theorem inside_of_not_final (h : ∀ c ∈ text, e.final c = false) : e.inside true text = true := by
  induction text with
  | nil => rfl
  | cons c rest ih =>
    rw [List.forall_mem_cons] at h
    rw [Escapes.inside, after_inside h.1]
    exact ih h.2

/-- A text ends in a sequence when it was in one from the start, or one begins in it, and
nothing ends it. -/
theorem inside_iff : e.inside inside text = true ↔
    (inside = true ∧ ∀ c ∈ text, e.final c = false) ∨
      ∃ front rest, text = front ++ e.esc :: rest ∧ ∀ c ∈ rest, e.final c = false := by
  constructor
  · intro h
    induction text generalizing inside with
    | nil => exact .inl ⟨h, nofun⟩
    | cons c rest ih =>
      rcases ih h with ⟨hafter, hrest⟩ | ⟨front, rest', rfl, hrest⟩
      · rw [Escapes.after, Bool.or_eq_true, Bool.and_eq_true, decide_eq_true_eq] at hafter
        rcases hafter with rfl | ⟨hinside, hfinal⟩
        · exact .inr ⟨[], rest, rfl, hrest⟩
        · refine .inl ⟨hinside, List.forall_mem_cons.mpr ⟨?_, hrest⟩⟩
          rwa [Bool.not_eq_true'] at hfinal
      · exact .inr ⟨c :: front, rest', rfl, hrest⟩
  · rintro (⟨rfl, htext⟩ | ⟨front, rest, rfl, hrest⟩)
    · exact inside_of_not_final htext
    · rw [inside_append, Escapes.inside, after_esc]
      exact inside_of_not_final hrest

/-! ## Cuts -/

/-- A cut of what follows a piece that ends outside of a sequence. -/
theorem Cut.prepend (h : Cut e text k front c back) (piece : List α)
    (hinside : e.inside false piece = false) (hvisible : (e.visible false piece).length = j) :
    Cut e (piece ++ text) (j + k) (piece ++ front) c back where
  text_eq := by rw [h.text_eq, List.append_assoc]
  length_visible := by
    rw [visible_append, hinside, List.length_append, hvisible, h.length_visible]
  outside := by rw [inside_append, hinside, h.outside]
  ne_esc := h.ne_esc

/-- A text that begins with a visible character can be cut there. -/
theorem Cut.here (h : c ≠ e.esc) (back : List α) : Cut e (c :: back) 0 [] c back :=
  ⟨rfl, rfl, rfl, h⟩

/-- What can be seen before a cut is what can be seen first. -/
theorem Cut.visible_front (h : Cut e text k front c back) :
    e.visible false front = (e.visible false text).take k := by
  rw [h.text_eq, visible_append, ← h.length_visible, List.take_left]

/-- What stands at a cut can be seen. -/
theorem Cut.visible_mark {mark : α} (h : Cut e text k front c back) (hmark : mark ≠ e.esc) :
    e.visible false (front ++ [mark]) = e.visible false front ++ [mark] := by
  rw [visible_append, h.outside, visible_outside hmark]
  rfl

theorem Cut.inside_mark {mark : α} (h : Cut e text k front c back) (hmark : mark ≠ e.esc) :
    e.inside false (front ++ [mark]) = false := by
  rw [inside_append, h.outside, Escapes.inside, after_outside hmark]
  rfl

end Scan

end EscapeText
