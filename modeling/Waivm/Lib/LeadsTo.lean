import Waivm.Lib.LabelledCode

/-!
# Assertions that lead to others

`LeadsTo step P Q`: from a state with `P` the machine comes, after some steps, to one with `Q`. This is
total correctness of a piece of code that may have several ends: the pieces are put together by the
rules below, and a loop is an assertion that leads to itself with a smaller number.

For numbered code an assertion belongs to a position, `At n P`, and there is a rule for each way in
which an instruction can move on.

Results:
1. `LeadsTo.trans`, `LeadsTo.imp`, `leadsTo_loop`: sequences, assertions, loops.
2. `leadsTo_forward`, `leadsTo_jump`, `stops_at`: one instruction.
3. `LeadsTo.ends`: what leads to an end, ends.
-/

namespace Machine

variable {σ ρ : Type*} {step : σ → Outcome σ ρ} {P P' Q Q' R : σ → Prop}

/-- From every state with `P` the machine comes to a state with `Q`. -/
def LeadsTo (step : σ → Outcome σ ρ) (P Q : σ → Prop) : Prop :=
  ∀ s, P s → ∃ t, Reaches step s t ∧ Q t

/-! ## 1. Pieces of code -/

theorem leadsTo_of_imp (h : ∀ s, P s → Q s) : LeadsTo step P Q :=
  fun s hs => ⟨s, reaches_refl s, h s hs⟩

theorem LeadsTo.trans (h : LeadsTo step P Q) (h' : LeadsTo step Q R) : LeadsTo step P R := by
  intro s hs
  obtain ⟨t, hst, ht⟩ := h s hs
  obtain ⟨u, htu, hu⟩ := h' t ht
  exact ⟨u, reaches_trans hst htu, hu⟩

theorem LeadsTo.imp (h : LeadsTo step P Q) (hpre : ∀ s, P' s → P s) (hpost : ∀ s, Q s → Q' s) :
    LeadsTo step P' Q' :=
  (leadsTo_of_imp hpre).trans (h.trans (leadsTo_of_imp hpost))

theorem leadsTo_of_next (h : ∀ s, P s → ∃ t, step s = .next t ∧ Q t) : LeadsTo step P Q := by
  intro s hs
  obtain ⟨t, hstep, ht⟩ := h s hs
  exact ⟨t, reaches_of_next hstep, ht⟩

/-- A loop that counts down from `n`: `I k` holds before the `k`-th round from the end. -/
theorem leadsTo_loop {I : Nat → σ → Prop} {n : Nat}
    (round : ∀ k, k < n → LeadsTo step (I (k + 1)) (I k)) : LeadsTo step (I n) (I 0) := by
  have hrounds : ∀ m, m ≤ n → LeadsTo step (I m) (I 0) := by
    intro m
    induction m with
    | zero => exact fun _ => leadsTo_of_imp fun _ hs => hs
    | succ m ih => exact fun hm => (round m hm).trans (ih (Nat.le_of_lt hm))
  exact hrounds n le_rfl

/-- What leads to a state in which the machine ends, ends. -/
theorem LeadsTo.ends {E : ρ → Prop} (h : LeadsTo step P Q)
    (hstop : ∀ t, Q t → ∃ r, step t = .done r ∧ E r) {s : σ} (hs : P s) :
    ∃ r, Ends step s r ∧ E r := by
  obtain ⟨t, hreach, ht⟩ := h s hs
  obtain ⟨r, hdone, hr⟩ := hstop t ht
  exact ⟨r, ends_of_reaches hreach (ends_of_done hdone), hr⟩

end Machine

namespace LabelledCode

open Machine (Outcome LeadsTo leadsTo_of_next)

/-! ## 2. Numbered code -/

variable {Instr σ ρ : Type*} {lang : Language Instr σ ρ} {code : List (Instr × Option Nat)}
  {P Q : σ → Prop} {n m : Nat} {i : Instr} {target : Option Nat}

/-- The machine is at instruction `n`, in a state with `P`. -/
structure At (n : Nat) (P : σ → Prop) (c : σ × Nat) : Prop where
  position : c.2 = n
  holds : P c.1

theorem At.imp {P Q : σ → Prop} (h : ∀ s, P s → Q s) (c : σ × Nat) (hc : At n P c) : At n Q c :=
  ⟨hc.position, h _ hc.holds⟩

/-- How instruction `n` is executed in a state. -/
def execAt (lang : Language Instr σ ρ) (code : List (Instr × Option Nat)) (n : Nat) (i : Instr)
    (target : Option Nat) (s : σ) : Move σ ρ :=
  lang.exec i (n + 1) (target.getD code.length < code.length) s

theorem numberStep_at (hget : code[n]? = some (i, target)) (s : σ) :
    numberStep lang code (s, n) =
      moveNumber lang code (n + 1) (target.getD code.length) (execAt lang code n i target s) := by
  rw [numberStep, hget]
  rfl

/-- An instruction that goes on to the next one. -/
theorem leadsTo_forward (hget : code[n]? = some (i, target))
    (hexec : ∀ s, P s → ∃ s', execAt lang code n i target s = .forward s' ∧ Q s') :
    LeadsTo (numberStep lang code) (At n P) (At (n + 1) Q) := by
  refine leadsTo_of_next ?_
  rintro ⟨s, _⟩ ⟨rfl, hs⟩
  obtain ⟨s', hmove, hs'⟩ := hexec s hs
  rw [numberStep_at hget, hmove]
  exact ⟨_, rfl, rfl, hs'⟩

/-- An instruction that goes to the one that it names. -/
theorem leadsTo_jump (hget : code[n]? = some (i, some m)) (hm : m < code.length)
    (hexec : ∀ s, P s → ∃ s', execAt lang code n i (some m) s = .jump s' ∧ Q s') :
    LeadsTo (numberStep lang code) (At n P) (At m Q) := by
  refine leadsTo_of_next ?_
  rintro ⟨s, _⟩ ⟨rfl, hs⟩
  obtain ⟨s', hmove, hs'⟩ := hexec s hs
  rw [numberStep_at hget, hmove]
  refine ⟨(s', m), ?_, rfl, hs'⟩
  exact if_pos hm

/-- An instruction that ends the run. -/
theorem stops_at {E : ρ → Prop} (hget : code[n]? = some (i, target))
    (hexec : ∀ s, P s → ∃ r, execAt lang code n i target s = .stop r ∧ E r) (c : σ × Nat)
    (hc : At n P c) : ∃ r, numberStep lang code c = .done r ∧ E r := by
  obtain ⟨s, _⟩ := c
  obtain ⟨rfl, hs⟩ := hc
  obtain ⟨r, hmove, hr⟩ := hexec s hs
  rw [numberStep_at hget, hmove]
  exact ⟨r, rfl, hr⟩

end LabelledCode
