import Waivm.Lib.Machine

/-!
# Code with labels and code with numbers

A program text is a list of lines: labels, and instructions that may name a label. It can be
run as it stands: the position is what is left of the text, and a jump goes to the text
behind a label. An assembler drops the labels and puts the number of an instruction in the place of
each name; the position is a number then. What the instructions do is a parameter.

Results:
1. `instrs_fromNumber`, `position_behind`: pieces of a text, and their numbers.
2. `linked_lockStep`: the text and the numbered code do the same, step by step.
3. `front_lockStep`: code runs in front of other code as by itself, until it leaves itself.
4. `behind_lockStep`: code that does not look at its place runs behind other code as by itself.
5. `numberStep_congr`: codes whose instructions do the same make the same steps.
-/

namespace LabelledCode

open Machine (Outcome LockStep LockStepUnless)

/-- A line of a text. -/
inductive Line (Name Instr : Type*)
  | label (name : Name)
  | instr (instr : Instr) (target : Option Name)

/-- Where an instruction goes: to the next one, to the one that it names, or to the one with the
number `n`; or the run ends. -/
inductive Move (σ ρ : Type*)
  | forward (s : σ)
  | jump (s : σ)
  | resume (s : σ) (n : Nat)
  | stop (r : ρ)

/-- What the instructions do. `exec i next target s` executes `i` in the state `s`; `next` is the
number of the instruction behind it, and `target` says whether what it names exists. -/
structure Language (Instr σ ρ : Type*) where
  exec : Instr → (next : Nat) → (target : Bool) → σ → Move σ ρ
  /-- The run went on behind the last instruction. -/
  ended : σ → ρ
  /-- The run went to an instruction that does not exist. -/
  lost : σ → ρ

variable {Name Instr σ ρ : Type*}

/-! ## Texts -/

/-- The instructions of a text. -/
def instrs : List (Line Name Instr) → List (Instr × Option Name)
  | [] => []
  | .label _ :: rest => instrs rest
  | .instr i target :: rest => (i, target) :: instrs rest

/-- The first instruction of a text, and what is behind it. -/
def next : List (Line Name Instr) → Option (Instr × Option Name × List (Line Name Instr))
  | [] => none
  | .label _ :: rest => next rest
  | .instr i target :: rest => some (i, target, rest)

/-- The text from instruction `n` on. -/
def fromNumber : (n : Nat) → List (Line Name Instr) → List (Line Name Instr)
  | _, [] => []
  | n, .label _ :: rest => fromNumber n rest
  | 0, .instr i target :: rest => .instr i target :: rest
  | n + 1, .instr _ _ :: rest => fromNumber n rest

/-- The text behind the first label `name`, and nothing where there is no such label. -/
def behind [DecidableEq Name] (name : Name) : List (Line Name Instr) → List (Line Name Instr)
  | [] => []
  | .label other :: rest => if other = name then rest else behind name rest
  | .instr _ _ :: rest => behind name rest

/-- The number of instructions before the end piece `rest` of `lines`. -/
def position (lines rest : List (Line Name Instr)) : Nat :=
  (instrs lines).length - (instrs rest).length

/-! ## The two machines -/

/-- The run goes on in the text `dest`. -/
def enterText (lang : Language Instr σ ρ) (s : σ) (dest : List (Line Name Instr)) :
    Outcome (σ × List (Line Name Instr)) ρ :=
  if (next dest).isSome then .next (s, dest) else .done (lang.lost s)

/-- Where a move leads in a text: `rest` is what is behind the instruction, `dest` what is behind the
label that it names. -/
def moveText (lang : Language Instr σ ρ) (lines rest dest : List (Line Name Instr)) :
    Move σ ρ → Outcome (σ × List (Line Name Instr)) ρ
  | .forward s => .next (s, rest)
  | .jump s => enterText lang s dest
  | .resume s n => enterText lang s (fromNumber n lines)
  | .stop r => .done r

/-- One instruction of a text, whose position is what is left of it. -/
def textStep [DecidableEq Name] (lang : Language Instr σ ρ) (lines : List (Line Name Instr))
    (c : σ × List (Line Name Instr)) : Outcome (σ × List (Line Name Instr)) ρ :=
  match next c.2 with
  | none => .done (lang.ended c.1)
  | some (i, target, rest) =>
    let dest := target.elim [] (behind · lines)
    moveText lang lines rest dest (lang.exec i (position lines rest) (next dest).isSome c.1)

/-- The run goes on at instruction `n`. -/
def enterNumber (lang : Language Instr σ ρ) (code : List (Instr × Option Nat)) (s : σ) (n : Nat) :
    Outcome (σ × Nat) ρ :=
  if n < code.length then .next (s, n) else .done (lang.lost s)

/-- Where a move leads in numbered code: `rest` is the number of the next instruction, `dest` that
of the one that it names. -/
def moveNumber (lang : Language Instr σ ρ) (code : List (Instr × Option Nat)) (rest dest : Nat) :
    Move σ ρ → Outcome (σ × Nat) ρ
  | .forward s => .next (s, rest)
  | .jump s => enterNumber lang code s dest
  | .resume s n => enterNumber lang code s n
  | .stop r => .done r

/-- One instruction of numbered code, whose position is a number. -/
def numberStep (lang : Language Instr σ ρ) (code : List (Instr × Option Nat)) (c : σ × Nat) :
    Outcome (σ × Nat) ρ :=
  match code[c.2]? with
  | none => .done (lang.ended c.1)
  | some (i, target) =>
    let dest := target.getD code.length
    moveNumber lang code (c.2 + 1) dest (lang.exec i (c.2 + 1) (dest < code.length) c.1)

/-- The numbered code of a text. -/
def link [DecidableEq Name] (lines : List (Line Name Instr)) : List (Instr × Option Nat) :=
  (instrs lines).map fun i => (i.1, i.2.map fun name => position lines (behind name lines))

/-! ## 1. Pieces of a text -/

section Pieces
variable {lines rest rest' : List (Line Name Instr)} {i : Instr} {target : Option Name}

theorem instrs_append (front rest : List (Line Name Instr)) :
    instrs (front ++ rest) = instrs front ++ instrs rest := by
  induction front with
  | nil => rfl
  | cons line front ih =>
    cases line with
    | label name => exact ih
    | instr i target => exact congrArg ((i, target) :: ·) ih

theorem next_eq_none_iff : next rest = none ↔ instrs rest = [] := by
  induction rest with
  | nil => exact ⟨fun _ => rfl, fun _ => rfl⟩
  | cons line rest ih =>
    cases line with
    | label name => exact ih
    | instr i target => exact ⟨nofun, nofun⟩

theorem next_isSome_iff : (next rest).isSome ↔ 0 < (instrs rest).length := by
  rw [Option.isSome_iff_ne_none, ne_eq, next_eq_none_iff, List.length_pos_iff]

theorem instrs_of_next (h : next rest = some (i, target, rest')) :
    instrs rest = (i, target) :: instrs rest' := by
  induction rest with
  | nil => cases h
  | cons line rest ih =>
    cases line with
    | label name => exact ih h
    | instr i target =>
      cases h
      rfl

theorem suffix_of_next (h : next rest = some (i, target, rest')) : rest' <:+ rest := by
  induction rest with
  | nil => cases h
  | cons line rest ih =>
    cases line with
    | label name => exact (ih h).trans (List.suffix_cons _ _)
    | instr i target =>
      cases h
      exact List.suffix_cons _ _

theorem instrs_fromNumber (n : Nat) (lines : List (Line Name Instr)) :
    instrs (fromNumber n lines) = (instrs lines).drop n := by
  fun_induction fromNumber n lines with
  | case1 n => exact List.drop_nil.symm
  | case2 n name rest ih => exact ih
  | case3 i target rest => rfl
  | case4 i target rest n ih => exact ih

theorem fromNumber_suffix (n : Nat) (lines : List (Line Name Instr)) :
    fromNumber n lines <:+ lines := by
  fun_induction fromNumber n lines with
  | case1 n => exact List.suffix_rfl
  | case2 n name rest ih => exact ih.trans (List.suffix_cons _ _)
  | case3 i target rest => exact List.suffix_rfl
  | case4 i target rest n ih => exact ih.trans (List.suffix_cons _ _)

theorem behind_suffix [DecidableEq Name] (name : Name) (lines : List (Line Name Instr)) :
    behind name lines <:+ lines := by
  fun_induction behind name lines with
  | case1 => exact List.suffix_rfl
  | case2 rest => exact List.suffix_cons _ _
  | case3 other rest hne ih => exact ih.trans (List.suffix_cons _ _)
  | case4 i target rest ih => exact ih.trans (List.suffix_cons _ _)

/-- The instructions of an end piece stand behind its position. -/
theorem instrs_eq_drop (h : rest <:+ lines) :
    instrs rest = (instrs lines).drop (position lines rest) := by
  obtain ⟨front, rfl⟩ := h
  have hposition : position (front ++ rest) rest = (instrs front).length := by
    rw [position, instrs_append, List.length_append, Nat.add_sub_cancel]
  rw [hposition, instrs_append, List.drop_left]

theorem length_instrs (h : rest <:+ lines) :
    position lines rest + (instrs rest).length = (instrs lines).length := by
  have hle : (instrs rest).length ≤ (instrs lines).length := by
    rw [instrs_eq_drop h, List.length_drop]
    exact Nat.sub_le _ _
  exact Nat.sub_add_cancel hle

/-- An end piece has an instruction exactly when its position is the number of one. -/
theorem next_isSome_iff_position (h : rest <:+ lines) :
    (next rest).isSome ↔ position lines rest < (instrs lines).length := by
  have hlength := length_instrs h
  rw [next_isSome_iff]
  omega

theorem position_fromNumber {n : Nat} (h : n < (instrs lines).length) :
    position lines (fromNumber n lines) = n := by
  have hlength := congrArg List.length (instrs_fromNumber n lines)
  have hsuffix := length_instrs (fromNumber_suffix n lines)
  rw [List.length_drop] at hlength
  omega

theorem next_fromNumber_isSome_iff {n : Nat} :
    (next (fromNumber n lines)).isSome ↔ n < (instrs lines).length := by
  rw [next_isSome_iff, instrs_fromNumber, List.length_drop]
  omega

/-- Behind an instruction the position is one more. -/
theorem position_of_next (h : rest <:+ lines) (hnext : next rest = some (i, target, rest')) :
    position lines rest' = position lines rest + 1 := by
  have hlength := length_instrs h
  have hlength' := length_instrs ((suffix_of_next hnext).trans h)
  have hcons := congrArg List.length (instrs_of_next hnext)
  rw [List.length_cons] at hcons
  omega

end Pieces

/-! ## 2. The two machines agree -/

section Linked
variable [DecidableEq Name] {lang : Language Instr σ ρ} {lines rest rest' : List (Line Name Instr)}

theorem length_link (lines : List (Line Name Instr)) : (link lines).length = (instrs lines).length :=
  List.length_map _

theorem link_getElem? (h : rest <:+ lines) :
    (link lines)[position lines rest]? = (next rest).map fun piece =>
      (piece.1, piece.2.1.map fun name => position lines (behind name lines)) := by
  have hdrop : (instrs lines)[position lines rest]? = (instrs rest)[0]? := by
    rw [instrs_eq_drop h, List.getElem?_drop, Nat.add_zero]
  rw [link, List.getElem?_map, hdrop]
  cases hnext : next rest with
  | none => rw [next_eq_none_iff.mp hnext]; rfl
  | some piece => rw [instrs_of_next hnext]; rfl

/-- The state is the same, and the position is the number of instructions before the text. -/
def AtText (lines : List (Line Name Instr)) (c : σ × Nat) (a : σ × List (Line Name Instr)) : Prop :=
  a.2 <:+ lines ∧ c = (a.1, position lines a.2)

/-- Both machines go on in the same piece of the text. -/
theorem enter_same {dest : List (Line Name Instr)} {n : Nat} (s : σ) (hsuffix : dest <:+ lines)
    (hexists : (next dest).isSome ↔ n < (instrs lines).length)
    (hposition : n < (instrs lines).length → position lines dest = n) :
    Outcome.Related (AtText lines) (· = ·) (enterNumber lang (link lines) s n) (enterText lang s dest) := by
  unfold enterNumber enterText
  rw [length_link]
  by_cases h : n < (instrs lines).length
  · rw [if_pos h, if_pos (hexists.mpr h)]
    exact .next ⟨hsuffix, congrArg (s, ·) (hposition h).symm⟩
  · rw [if_neg h, if_neg (mt hexists.mp h)]
    exact .done rfl

/-- The text behind the label that an instruction names, and its number in the linked code. -/
theorem target_same (target : Option Name) :
    target.elim [] (behind · lines) <:+ lines ∧
    ((next (target.elim [] (behind · lines))).isSome ↔
      (target.map fun name => position lines (behind name lines)).getD (link lines).length <
        (instrs lines).length) ∧
    ((target.map fun name => position lines (behind name lines)).getD (link lines).length <
        (instrs lines).length →
      position lines (target.elim [] (behind · lines)) =
        (target.map fun name => position lines (behind name lines)).getD (link lines).length) := by
  cases target with
  | none =>
    rw [length_link]
    exact ⟨List.nil_suffix, ⟨nofun, fun h => absurd h (Nat.lt_irrefl _)⟩,
      fun h => absurd h (Nat.lt_irrefl _)⟩
  | some name =>
    exact ⟨behind_suffix name lines, next_isSome_iff_position (behind_suffix name lines),
      fun _ => rfl⟩

theorem step_same {c : σ × Nat} {a : σ × List (Line Name Instr)} (h : AtText lines c a) :
    Outcome.Related (AtText lines) (· = ·) (numberStep lang (link lines) c)
      (textStep lang lines a) := by
  obtain ⟨s, rest⟩ := a
  obtain ⟨hsuffix, rfl⟩ := h
  unfold numberStep textStep
  rw [link_getElem? hsuffix]
  cases hnext : next rest with
  | none => exact .done rfl
  | some piece =>
    obtain ⟨i, target, rest'⟩ := piece
    obtain ⟨htarget, hexists, hposition⟩ := @target_same _ _ _ lines target
    have hafter := position_of_next hsuffix hnext
    have hdecide : decide ((target.map fun name => position lines (behind name lines)).getD
        (link lines).length < (link lines).length) =
        (next (target.elim [] (behind · lines))).isSome := by
      rw [Bool.eq_iff_iff, decide_eq_true_iff, hexists, length_link]
    simp only [Option.map_some, hdecide, ← hafter]
    cases lang.exec i (position lines rest') (next (target.elim [] (behind · lines))).isSome s with
    | forward s' => exact .next ⟨(suffix_of_next hnext).trans hsuffix, rfl⟩
    | jump s' => exact enter_same s' htarget hexists hposition
    | resume s' n =>
      exact enter_same s' (fromNumber_suffix n lines) next_fromNumber_isSome_iff position_fromNumber
    | stop r => exact .done rfl

/-- The linked code and the text run in lock step. -/
theorem linked_lockStep (lang : Language Instr σ ρ) (lines : List (Line Name Instr)) :
    LockStep (numberStep lang (link lines)) (textStep lang lines) (AtText lines) (· = ·) :=
  fun _ _ h => step_same h

omit [DecidableEq Name] in
/-- Both machines start at the first line. -/
theorem atText_start (lines : List (Line Name Instr)) (s : σ) : AtText lines (s, 0) (s, lines) :=
  ⟨List.suffix_rfl, by rw [position, Nat.sub_self]⟩

end Linked

/-! ## 3. Code in front of other code -/

/-- An instruction that names what does not exist is lost, or goes where it goes anyway. -/
def Checks (lang : Language Instr σ ρ) (i : Instr) : Prop :=
  ∀ next s, (∃ s', lang.exec i next false s = .stop (lang.lost s')) ∨
    lang.exec i next true s = lang.exec i next false s

/-- The run has left the code. -/
def Left (lang : Language Instr σ ρ) (r : ρ) : Prop :=
  ∃ s, r = lang.ended s ∨ r = lang.lost s

section Front
variable {lang : Language Instr σ ρ} {code : List (Instr × Option Nat)} {c : σ × Nat}

theorem enter_longer {n : Nat} (h : n < code.length) (rest : List (Instr × Option Nat)) (s : σ) :
    enterNumber lang (code ++ rest) s n = enterNumber lang code s n := by
  unfold enterNumber
  rw [if_pos h, if_pos (Nat.lt_of_lt_of_le h (List.length_append ▸ Nat.le_add_right _ _))]

/-- An instruction does the same when more targets exist, or it is lost. -/
theorem exec_longer {i : Instr} (hchecks : Checks lang i) (next : Nat) (s : σ) {target target' : Bool}
    (h : target = true → target' = true) :
    (∃ s', lang.exec i next target s = .stop (lang.lost s')) ∨
      lang.exec i next target' s = lang.exec i next target s := by
  cases target with
  | true => exact .inr (h rfl ▸ rfl)
  | false =>
    cases target' with
    | false => exact .inr rfl
    | true => exact hchecks next s

/-- A move in longer code is the same, unless the shorter code is left. -/
theorem move_longer (rest : List (Instr × Option Nat)) (next : Nat) (target : Option Nat)
    (move : Move σ ρ) :
    (∃ r, moveNumber lang code next (target.getD code.length) move = .done r ∧ Left lang r) ∨
      moveNumber lang (code ++ rest) next (target.getD (code ++ rest).length) move =
        moveNumber lang code next (target.getD code.length) move := by
  cases move with
  | forward s => exact .inr rfl
  | stop r => exact .inr rfl
  | jump s =>
    cases target with
    | none => exact .inl ⟨_, if_neg (Nat.lt_irrefl _), s, .inr rfl⟩
    | some t =>
      by_cases ht : t < code.length
      · exact .inr (enter_longer ht rest s)
      · exact .inl ⟨_, if_neg ht, s, .inr rfl⟩
  | resume s m =>
    by_cases hm : m < code.length
    · exact .inr (enter_longer hm rest s)
    · exact .inl ⟨_, if_neg hm, s, .inr rfl⟩

/-- A step in longer code is the same, unless the shorter code is left. -/
theorem front_step (hchecks : ∀ pair ∈ code, Checks lang pair.1) (rest : List (Instr × Option Nat)) :
    (∃ r, numberStep lang code c = .done r ∧ Left lang r) ∨
      numberStep lang (code ++ rest) c = numberStep lang code c := by
  obtain ⟨s, n⟩ := c
  unfold numberStep
  rcases Nat.lt_or_ge n code.length with hn | hn
  · rw [List.getElem?_append_left hn]
    cases hget : code[n]? with
    | none => exact .inl ⟨_, rfl, s, .inl rfl⟩
    | some pair =>
      obtain ⟨i, target⟩ := pair
      -- what the instruction names in the code exists in the longer code too
      have htarget : decide (target.getD code.length < code.length) = true →
          decide (target.getD (code ++ rest).length < (code ++ rest).length) = true := by
        rw [decide_eq_true_iff, decide_eq_true_iff, List.length_append]
        cases target with
        | none => exact fun h => absurd h (Nat.lt_irrefl _)
        | some t => exact fun h => Nat.lt_of_lt_of_le h (Nat.le_add_right _ _)
      rcases exec_longer (hchecks _ (List.mem_of_getElem? hget)) (n + 1) s htarget with ⟨s', hlost⟩ | hexec
      · simp only [hlost]
        exact .inl ⟨_, rfl, s', .inr rfl⟩
      · simp only [hexec]
        exact move_longer rest (n + 1) target _
  · rw [List.getElem?_eq_none hn]
    exact .inl ⟨_, rfl, s, .inl rfl⟩

/-- In front of other code, code runs as it does by itself, until it leaves itself. -/
theorem front_lockStep (hchecks : ∀ pair ∈ code, Checks lang pair.1)
    (rest : List (Instr × Option Nat)) :
    LockStepUnless (Left lang) (numberStep lang (code ++ rest)) (numberStep lang code) (· = ·)
      (· = ·) := by
  rintro c _ rfl
  rcases front_step hchecks rest with hleft | hsame
  · exact .inl hleft
  · rw [hsame]
    generalize numberStep lang code c = o
    cases o with
    | next c' => exact .inr (.next rfl)
    | done r => exact .inr (.done rfl)

end Front

/-! ## 4. Code behind other code -/

/-- Code that starts at number `base`: what it names moves with it. -/
def relocate (base : Nat) (code : List (Instr × Option Nat)) : List (Instr × Option Nat) :=
  code.map fun i => (i.1, i.2.map (base + ·))

/-- What an instruction does depends on no number of an instruction. -/
structure Placeless (lang : Language Instr σ ρ) (i : Instr) : Prop where
  next_free : ∀ next next' target s, lang.exec i next target s = lang.exec i next' target s
  stays : ∀ next target s s' n, lang.exec i next target s ≠ .resume s' n

section Behind
variable {lang : Language Instr σ ρ} {code : List (Instr × Option Nat)}

/-- The same state, at the same instruction of code that starts at number `base`. -/
def AtBase (base : Nat) (c a : σ × Nat) : Prop :=
  c = (a.1, base + a.2)

/-- Behind other code, code that names no place runs as it does by itself. -/
theorem behind_lockStep (front : List (Instr × Option Nat))
    (hplaceless : ∀ pair ∈ code, Placeless lang pair.1) :
    LockStep (numberStep lang (front ++ relocate front.length code)) (numberStep lang code)
      (AtBase front.length) (· = ·) := by
  rintro _ ⟨s, n⟩ rfl
  unfold numberStep
  have hget : (front ++ relocate front.length code)[front.length + n]? =
      code[n]?.map fun i => (i.1, i.2.map (front.length + ·)) := by
    rw [List.getElem?_append_right (Nat.le_add_right _ _), Nat.add_sub_cancel_left, relocate,
      List.getElem?_map]
  have hlength : (front ++ relocate front.length code).length = front.length + code.length := by
    rw [List.length_append, relocate, List.length_map]
  simp only [hget, hlength]
  cases hpair : code[n]? with
  | none => exact .done rfl
  | some pair =>
    obtain ⟨i, target⟩ := pair
    have hi : Placeless lang i := hplaceless _ (List.mem_of_getElem? hpair)
    have hdest : (target.map (front.length + ·)).getD (front.length + code.length) =
        front.length + target.getD code.length := by
      cases target <;> rfl
    simp only [Option.map_some, hdest, Nat.add_lt_add_iff_left]
    rw [hi.next_free (front.length + n + 1) (n + 1)]
    cases hexec : lang.exec i (n + 1) (target.getD code.length < code.length) s with
    | forward s' => exact .next rfl
    | jump s' =>
      unfold moveNumber enterNumber
      simp only [hlength, Nat.add_lt_add_iff_left]
      split
      · exact .next rfl
      · exact .done rfl
    | resume s' m => exact absurd hexec (hi.stays _ _ _ _ _)
    | stop r => exact .done rfl

end Behind

/-! ## 5. Codes that do the same -/

section Same
variable {lang : Language Instr σ ρ} {ι : Type*} {f g : ι → Instr × Option Nat}

/-- Of the code only its length matters for where a move leads. -/
theorem moveNumber_of_length {code code' : List (Instr × Option Nat)}
    (h : code.length = code'.length) (rest dest : Nat) (move : Move σ ρ) :
    moveNumber lang code rest dest move = moveNumber lang code' rest dest move := by
  unfold moveNumber enterNumber
  rw [h]

/-- What an instruction does and names may be written in another way. -/
theorem numberStep_congr (hexec : ∀ i, lang.exec (f i).1 = lang.exec (g i).1)
    (htarget : ∀ i, (f i).2 = (g i).2) (program : List ι) :
    numberStep lang (program.map f) = numberStep lang (program.map g) := by
  funext c
  unfold numberStep
  rw [List.getElem?_map, List.getElem?_map, List.length_map, List.length_map]
  cases program[c.2]? with
  | none => rfl
  | some i =>
    simp only [Option.map_some, hexec, htarget]
    exact moveNumber_of_length ((List.length_map _).trans (List.length_map _).symm) _ _ _

end Same

end LabelledCode
