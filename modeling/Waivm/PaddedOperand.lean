import Waivm.AssemblerFile

/-!
# Blanks in the brackets of an operand

`parse_memory_operand` trims what stands between the brackets, but it never sees a blank
there: `tokenize` has cut the line at every blank before. A source with a blank behind a
`[` or before a `]` has a token that begins or ends with the wrong bracket.

Results:
1. `tokensOf_trim`, `mem_tokensOf`: the tokens of a line that is put together.
2. `operand_of_bracket`: what is in brackets in an accepted source is the operand of a load
   or a store.
3. `padded_same_iff`: which sources with blanks in an operand are accepted.
-/

namespace Waivm

open CString
open LittleEndian (Byte)

/-- `inner` stands in brackets in the source, outside of comments. -/
structure OperandIn (source before inner after : Text) : Prop where
  source_eq : source = before ++ '[' :: (inner ++ ']' :: after)
  code : ';' ∉ lastLine before
  inner_free : ∀ c ∈ inner, c ≠ '\n' ∧ c ≠ ';' ∧ c ≠ ']'

/-- The source with `left` behind the `[` of an operand and `right` before its `]`. -/
def padOperand (before left inner right after : Text) : Text :=
  before ++ '[' :: (left ++ inner ++ right ++ ']' :: after)

/-- The padded source is accepted, and assembles to the same program. -/
def SameProgram (alloc : AssemblerAlloc) (source padded : Text) : Prop :=
  (waiAssembleSource alloc padded).1.error = .ok ∧
  (waiAssembleSource alloc padded).2.instructions = (waiAssembleSource alloc source).2.instructions

/-! ## 1. Tokens -/

section Tokens
variable {text rest u v w : Text} {c : Char}

/-- A separator cuts a line in two. -/
theorem tokensOf_separator (text rest : Text) (hc : isSeparator c = true) :
    tokensOf (text ++ c :: rest) = tokensOf text ++ tokensOf rest := by
  rw [tokensOf, List.splitOnP_append_cons text rest hc, List.filter_append]
  rfl

theorem tokensOf_append_blank (text : Text) (h : ∀ c ∈ rest, isSeparator c = true) :
    tokensOf (text ++ rest) = tokensOf text := by
  cases rest with
  | nil => rw [List.append_nil]
  | cons c rest =>
    rw [List.forall_mem_cons] at h
    rw [tokensOf_separator text rest h.1, tokensOf_eq_nil_iff.mpr h.2, List.append_nil]

theorem tokensOf_blank_append (h : ∀ c ∈ text, isSeparator c = true) (rest : Text) :
    tokensOf (text ++ rest) = tokensOf rest := by
  rcases List.eq_nil_or_concat' text with rfl | ⟨front, c, rfl⟩
  · rfl
  · rw [List.forall_mem_append, List.forall_mem_singleton] at h
    rw [List.append_assoc, List.singleton_append, tokensOf_separator front rest h.2,
      tokensOf_eq_nil_iff.mpr h.1, List.nil_append]

theorem isSeparator_of_isspace (h : isspace c = true) : isSeparator c = true :=
  Bool.or_eq_true_iff.mpr (.inl h)

/-- Trimming a line leaves its tokens alone. -/
theorem tokensOf_trim (text : Text) : tokensOf (trim text) = tokensOf text := by
  have hleft : ∀ c ∈ text.takeWhile isspace, isSeparator c = true := fun c hc =>
    isSeparator_of_isspace (List.mem_takeWhile_imp hc)
  have hright : ∀ c ∈ (text.dropWhile isspace).rtakeWhile isspace, isSeparator c = true :=
    fun c hc => isSeparator_of_isspace (List.mem_rtakeWhile_imp hc)
  calc tokensOf (trim text)
      = tokensOf (trim text ++ (text.dropWhile isspace).rtakeWhile isspace) :=
        (tokensOf_append_blank _ hright).symm
    _ = tokensOf (text.dropWhile isspace) := by rw [trim, List.rdropWhile_append_rtakeWhile]
    _ = tokensOf (text.takeWhile isspace ++ text.dropWhile isspace) :=
        (tokensOf_blank_append hleft _).symm
    _ = tokensOf text := by rw [List.takeWhile_append_dropWhile]

/-- What stands between separators, or at an end of the line, is a token. -/
theorem mem_tokensOf (hne : w ≠ []) (hw : ∀ c ∈ w, isSeparator c = false)
    (hu : ∀ c ∈ u.getLast?, isSeparator c = true) (hv : ∀ c ∈ v.head?, isSeparator c = true) :
    w ∈ tokensOf (u ++ (w ++ v)) := by
  have hword : tokensOf w = [w] := by
    rw [tokensOf, List.splitOnP_eq_singleton hw]
    simp [hne]
  have hright : w ∈ tokensOf (w ++ v) := by
    cases v with
    | nil => rw [List.append_nil, hword]; exact List.mem_singleton_self w
    | cons c v =>
      rw [tokensOf_separator w v (hv c rfl), hword]
      exact List.mem_append_left _ (List.mem_singleton_self w)
  rcases List.eq_nil_or_concat' u with rfl | ⟨front, c, rfl⟩
  · exact hright
  · rw [List.append_assoc, List.singleton_append,
      tokensOf_separator front _ (hu c List.getLast?_concat)]
    exact List.mem_append_right _ hright

end Tokens

/-! ## 2. Brackets -/

/-- A text without brackets. -/
def Plain (text : Text) : Prop :=
  '[' ∉ text ∧ ']' ∉ text

section Brackets
variable {text token line : Text} {tokens : List Text} {item : Item}

theorem plain_of_forall {good : Char → Bool} (hopen : good '[' = false) (hclose : good ']' = false)
    (h : ∀ c ∈ text, good c = true) : Plain text :=
  ⟨fun hmem => Bool.false_ne_true (hopen.symm.trans (h _ hmem)),
    fun hmem => Bool.false_ne_true (hclose.symm.trans (h _ hmem))⟩

theorem plain_of_register {reg : Byte} (h : RegisterToken text reg) : Plain text := by
  have hdigit : ∀ n : Fin 8, isalnum (Nat.digitChar n) = true := by decide
  obtain ⟨n⟩ := h
  refine @plain_of_forall _ isalnum rfl rfl (List.forall_mem_cons.mpr ⟨rfl, ?_⟩)
  exact List.forall_mem_singleton.mpr (hdigit n)

theorem plain_of_identifier (h : Identifier text) : Plain text := by
  obtain ⟨c, rest, rfl, hc, hrest⟩ := h
  refine @plain_of_forall _ (fun c => isalnum c || c == '_') rfl rfl ?_
  simp only [List.forall_mem_cons, Bool.or_eq_true, beq_iff_eq]
  exact ⟨hc.imp_left fun h => Bool.or_eq_true_iff.mpr (.inl h), hrest⟩

theorem plain_of_integer {value : WaiValue} (h : IntegerToken text value) : Plain text := by
  have hnumeral : ∀ {digits : Text} {n : Nat}, Numeral digits n → Plain digits := fun hn =>
    @plain_of_forall _ isalnum rfl rfl (alnum_of_numeral hn).2
  have hsign : ∀ {digits : Text} {c : Char}, c ≠ '[' → c ≠ ']' → Plain digits → Plain (c :: digits) := by
    intro digits c hopen hclose hdigits
    exact ⟨fun h => hdigits.1 ((List.mem_cons.mp h).resolve_left hopen.symm),
      fun h => hdigits.2 ((List.mem_cons.mp h).resolve_left hclose.symm)⟩
  obtain ⟨_, hlit, _⟩ := h
  cases hlit with
  | bare hn => exact hnumeral hn
  | plus hn | minus hn => exact hsign (by decide) (by decide) (hnumeral hn)

theorem plain_of_mnemonic {form : MnemonicForm} (h : (text, form) ∈ mnemonics) : Plain text := by
  have hall : ∀ name ∈ mnemonics.map Prod.fst, Plain name := by
    unfold Plain
    decide +kernel
  exact hall text (List.mem_map_of_mem (f := Prod.fst) h)

/-- A memory operand has brackets at its ends and nowhere else. -/
theorem inner_of_memory {operand : MemOperand} (h : MemoryToken text operand) :
    ∃ inner, text = '[' :: (inner ++ [']']) ∧ Plain inner := by
  cases h with
  | reg _ hreg => exact ⟨_, rfl, plain_of_register hreg⟩
  | abs _ haddress => exact ⟨_, rfl, plain_of_integer haddress⟩

/-- A `[` in a memory operand is its first character. -/
theorem open_at_start {w t : Text} {operand : MemOperand}
    (h : MemoryToken (w ++ '[' :: t) operand) : w = [] ∧ ∃ inner, t = inner ++ [']'] ∧ Plain inner := by
  obtain ⟨inner, heq, hplain⟩ := inner_of_memory h
  cases w with
  | nil => exact ⟨rfl, inner, (List.cons.inj heq).2, hplain⟩
  | cons c w =>
    have hmem : '[' ∈ inner ++ [']'] :=
      (List.cons.inj heq).2 ▸ List.mem_append_right _ List.mem_cons_self
    rcases List.mem_append.mp hmem with hmem | hmem
    · exact absurd hmem hplain.1
    · cases List.mem_singleton.mp hmem

/-- Where every operand is plain or a memory operand, a token with a bracket is the latter. -/
theorem memory_of_operands {name : Text} {form : MnemonicForm} {operands : List Text}
    (hname : (name, form) ∈ mnemonics) (htoken : token ∈ name :: operands) (hbracket : ¬ Plain token)
    (hoperands : ∀ text ∈ operands, Plain text ∨ ∃ operand, MemoryToken text operand) :
    ∃ operand, MemoryToken token operand := by
  rcases List.mem_cons.mp htoken with rfl | hmem
  · exact absurd (plain_of_mnemonic hname) hbracket
  · exact (hoperands token hmem).resolve_left hbracket

/-- Only loads and stores have a token with a bracket, and that is their memory operand. -/
theorem memory_of_bracket {instr : WaiInstruction} {target : Option Text}
    (h : InstructionForm tokens instr target) (htoken : token ∈ tokens) (hbracket : ¬ Plain token) :
    (tokens.head? = some ['l', 'o', 'a', 'd'] ∨ tokens.head? = some ['s', 't', 'o', 'r', 'e']) ∧
      ∃ operand, MemoryToken token operand := by
  have hplain : ∀ {name : Text} {form : MnemonicForm} {operands : List Text},
      (name, form) ∈ mnemonics → (∀ text ∈ operands, Plain text) → token ∉ name :: operands := by
    intro name form operands hname hoperands hmem
    rcases List.mem_cons.mp hmem with rfl | hmem
    · exact hbracket (plain_of_mnemonic hname)
    · exact hbracket (hoperands token hmem)
  cases h with
  | @aluReg name _ _ opcodes _ _ hname ha hb =>
    refine absurd htoken (hplain ((@mem_mnemonics_iff name (.alu opcodes)).mpr hname) ?_)
    simpa using ⟨plain_of_register ha, plain_of_register hb⟩
  | @aluImm name _ _ opcodes _ _ hname ha himm =>
    refine absurd htoken (hplain ((@mem_mnemonics_iff name (.alu opcodes)).mpr hname) ?_)
    simpa using ⟨plain_of_register ha, plain_of_integer himm⟩
  | loadReg ha hmem | loadAbs ha hmem =>
    refine ⟨.inl rfl,
      memory_of_operands ((@mem_mnemonics_iff _ .load).mpr rfl) htoken hbracket ?_⟩
    simpa using ⟨.inl (plain_of_register ha), .inr ⟨_, hmem⟩⟩
  | storeReg hmem ha | storeAbs hmem ha =>
    refine ⟨.inr rfl,
      memory_of_operands ((@mem_mnemonics_iff _ .store).mpr rfl) htoken hbracket ?_⟩
    simpa using ⟨.inr ⟨_, hmem⟩, .inl (plain_of_register ha)⟩
  | @oneRegister name _ opcode _ hname ha =>
    refine absurd htoken (hplain ((@mem_mnemonics_iff name (.oneRegister opcode)).mpr hname) ?_)
    simpa using plain_of_register ha
  | @labelJump name _ opcode hname hlabel =>
    refine absurd htoken (hplain ((@mem_mnemonics_iff name (.labelJump opcode)).mpr hname) ?_)
    simpa using plain_of_identifier hlabel
  | @registerJump name _ _ opcode _ hname ha hlabel =>
    refine absurd htoken (hplain ((@mem_mnemonics_iff name (.registerJump opcode)).mpr hname) ?_)
    simpa using ⟨plain_of_register ha, plain_of_identifier hlabel⟩
  | @bare name opcode hname =>
    exact absurd htoken (hplain ((@mem_mnemonics_iff name (.noOperand opcode)).mpr hname) nofun)

/-- A line with a bracket is an instruction. -/
theorem form_of_bracket (h : LineItem line item) (hbracket : ¬ Plain line) :
    ∃ instr target, InstructionForm (tokensOf line) instr target := by
  cases h with
  | @label name blanks hname hblanks =>
    refine absurd ?_ hbracket
    have hname := plain_of_identifier hname
    have hblanks := @plain_of_forall blanks isspace rfl rfl hblanks
    simpa [Plain] using ⟨⟨hname.1, hblanks.1⟩, hname.2, hblanks.2⟩
  | instruction h => exact ⟨_, _, h⟩

end Brackets

/-! ## 3. Lines around a cut -/

section Cut
variable {alloc : AssemblerAlloc} {text rest : Text} {c : Char}

/-- A comment that begins in the last line begins in what was added, or before. -/
theorem not_comment_append (htext : ';' ∉ lastLine text) (hrest : ';' ∉ rest) :
    ';' ∉ lastLine (text ++ rest) := by
  induction rest using List.reverseRecOn with
  | nil => rwa [List.append_nil]
  | append_singleton rest c ih =>
    rw [List.mem_append, not_or] at hrest
    rw [← List.append_assoc, lastLine_concat]
    split
    · exact List.not_mem_nil
    · intro h
      rcases List.mem_append.mp h with h | h
      · exact ih hrest.1 h
      · exact hrest.2 h

/-- What is not in a comment stays. -/
theorem takeWhile_code (hcode : ';' ∉ text) (rest : Text) :
    (text ++ rest).takeWhile (· != ';') = text ++ rest.takeWhile (· != ';') := by
  refine List.takeWhile_append_of_pos fun c hc => ?_
  rw [bne_iff_ne]
  rintro rfl
  exact hcode hc

/-- A line of an accepted source with a bracket outside its comment is an instruction. -/
theorem form_of_cut (hok : (waiAssembleSource alloc (text ++ rest)).1.error = .ok)
    (hbracket : ¬ Plain ((lastLine text ++ rest.takeWhile (· != '\n')).takeWhile (· != ';'))) :
    ∃ instr target, InstructionForm
      (tokensOf ((lastLine text ++ rest.takeWhile (· != '\n')).takeWhile (· != ';'))) instr target := by
  obtain ⟨items, hreads, _, _⟩ := assembled_items hok
  rw [sourceLines_append, headD_splitOn] at hreads
  obtain ⟨_, _, _, _, hline⟩ := readsAs_of_append hreads
  have htrim : ¬ Plain (stripLine (lastLine text ++ rest.takeWhile (· != '\n'))) := by
    intro hplain
    exact hbracket ⟨fun h => hplain.1 (mem_trim h rfl), fun h => hplain.2 (mem_trim h rfl)⟩
  cases hline with
  | blank hblank _ =>
    exact absurd (@plain_of_forall _ isSeparator rfl rfl hblank) htrim
  | item hitem _ =>
    obtain ⟨instr, target, hform⟩ := form_of_bracket hitem htrim
    rw [stripLine, tokensOf_trim] at hform
    exact ⟨instr, target, hform⟩

/-- The token around a bracket is the operand of a load or a store. -/
theorem memory_of_cut (hok : (waiAssembleSource alloc (text ++ rest)).1.error = .ok) {u w v : Text}
    (hline : (lastLine text ++ rest.takeWhile (· != '\n')).takeWhile (· != ';') = u ++ (w ++ v))
    (hw : ∀ c ∈ w, isSeparator c = false) (hu : ∀ c ∈ u.getLast?, isSeparator c = true)
    (hv : ∀ c ∈ v.head?, isSeparator c = true) (hbracket : ¬ Plain w) :
    (((tokensOf (u ++ (w ++ v))).head? = some ['l', 'o', 'a', 'd'] ∨
      (tokensOf (u ++ (w ++ v))).head? = some ['s', 't', 'o', 'r', 'e']) ∧
      ∃ operand, MemoryToken w operand) := by
  have hline' : ¬ Plain (u ++ (w ++ v)) := fun hplain =>
    hbracket ⟨fun h => hplain.1 (List.mem_append_right _ (List.mem_append_left _ h)),
      fun h => hplain.2 (List.mem_append_right _ (List.mem_append_left _ h))⟩
  obtain ⟨instr, target, hform⟩ := form_of_cut hok (hline ▸ hline')
  rw [hline] at hform
  have hne : w ≠ [] := by
    rintro rfl
    exact hbracket ⟨List.not_mem_nil, List.not_mem_nil⟩
  exact memory_of_bracket hform (mem_tokensOf hne hw hu hv) hbracket

/-- A line up to its last separator, and what follows. -/
theorem word_at_end (text : Text) :
    ∃ u w, text = u ++ w ∧ (∀ c ∈ w, isSeparator c = false) ∧ ∀ c ∈ u.getLast?, isSeparator c = true := by
  refine ⟨text.rdropWhile (!isSeparator ·), text.rtakeWhile (!isSeparator ·),
    List.rdropWhile_append_rtakeWhile.symm, fun c hc => ?_, fun c hc => ?_⟩
  · have hc := @List.mem_rtakeWhile_imp _ (!isSeparator ·) _ _ hc
    exact (Bool.not_eq_true' _).mp hc
  · have hnot := List.head?_dropWhile_not (!isSeparator ·) text.reverse
    rw [List.rdropWhile, List.getLast?_reverse, Option.mem_def] at hc
    rw [hc] at hnot
    exact (Bool.not_eq_false' _).mp hnot

/-- A line up to its first separator. -/
theorem word_at_start (text : Text) :
    ∃ w v, text = w ++ v ∧ (∀ c ∈ w, isSeparator c = false) ∧ ∀ c ∈ v.head?, isSeparator c = true := by
  refine ⟨text.takeWhile (!isSeparator ·), text.dropWhile (!isSeparator ·),
    List.takeWhile_append_dropWhile.symm, fun c hc => ?_, fun c hc => ?_⟩
  · have hc := @List.mem_takeWhile_imp _ (!isSeparator ·) _ _ hc
    exact (Bool.not_eq_true' _).mp hc
  · have hnot := List.head?_dropWhile_not (!isSeparator ·) text
    rw [Option.mem_def.mp hc] at hnot
    exact (Bool.not_eq_false' _).mp hnot

/-- An accepted source has no separator and no end of the line behind a `[`. -/
theorem no_blank_after_open {before : Text} (hcode : ';' ∉ lastLine before) (hc : isspace c = true) :
    (waiAssembleSource alloc (before ++ '[' :: c :: rest)).1.error ≠ .ok := by
  intro hok
  rw [List.append_cons] at hok
  obtain ⟨u, w, hsplit, hw, hu⟩ := word_at_end (lastLine before)
  have hsep : ∀ d ∈ (((c :: rest).takeWhile (· != '\n')).takeWhile (· != ';')).head?,
      isSeparator d = true := by
    intro d hd
    rw [Option.mem_def, List.head?_takeWhile, List.head?_takeWhile] at hd
    obtain ⟨hd, _⟩ := Option.filter_eq_some_iff.mp hd
    obtain ⟨hd, _⟩ := Option.filter_eq_some_iff.mp hd
    cases hd
    exact isSeparator_of_isspace hc
  have hline : (lastLine (before ++ ['[']) ++ (c :: rest).takeWhile (· != '\n')).takeWhile (· != ';') =
      u ++ ((w ++ ['[']) ++ ((c :: rest).takeWhile (· != '\n')).takeWhile (· != ';')) := by
    rw [lastLine_concat, if_neg (by decide), takeWhile_code (by simpa using hcode), hsplit]
    simp
  obtain ⟨_, operand, hmemory⟩ := memory_of_cut hok hline
    (List.forall_mem_append.mpr ⟨hw, List.forall_mem_singleton.mpr rfl⟩) hu hsep
    (fun hplain => hplain.1 (List.mem_append_right _ (List.mem_singleton_self _)))
  obtain ⟨inner, heq, _⟩ := inner_of_memory hmemory
  have hlast := congrArg List.getLast? heq
  rw [← List.cons_append, List.getLast?_concat, List.getLast?_concat] at hlast
  cases hlast

/-- An accepted source has no blank before a `]`. -/
theorem no_blank_before_close (hcode : ';' ∉ lastLine (text ++ [c])) (hc : isspace c = true) :
    (waiAssembleSource alloc (text ++ [c] ++ ']' :: rest)).1.error ≠ .ok := by
  intro hok
  obtain ⟨w, v, hsplit, hw, hv⟩ := word_at_start ((rest.takeWhile (· != '\n')).takeWhile (· != ';'))
  have hu : ∀ d ∈ (lastLine (text ++ [c])).getLast?, isSeparator d = true := by
    intro d hd
    rw [lastLine_concat] at hd
    split at hd
    · cases hd
    · rw [List.getLast?_concat] at hd
      cases hd
      exact isSeparator_of_isspace hc
  have hline : (lastLine (text ++ [c]) ++ (']' :: rest).takeWhile (· != '\n')).takeWhile (· != ';') =
      lastLine (text ++ [c]) ++ ((']' :: w) ++ v) := by
    rw [takeWhile_code hcode, List.takeWhile_cons_of_pos rfl, List.takeWhile_cons_of_pos rfl, hsplit]
    rfl
  obtain ⟨_, operand, hmemory⟩ := memory_of_cut hok hline
    (List.forall_mem_cons.mpr ⟨rfl, hw⟩) hu hv
    (fun hplain => hplain.2 List.mem_cons_self)
  obtain ⟨inner, heq, _⟩ := inner_of_memory hmemory
  cases heq

end Cut

/-! ## 4. Operands -/

section Operand
variable {alloc : AssemblerAlloc} {source before inner after left right : Text}

/-- The line of an operand, without its comment. -/
theorem line_of_operand (h : OperandIn source before inner after) :
    (lastLine before ++ ('[' :: (inner ++ ']' :: after)).takeWhile (· != '\n')).takeWhile (· != ';') =
      lastLine before ++ '[' :: (inner ++ ']' ::
        (after.takeWhile (· != '\n')).takeWhile (· != ';')) := by
  have hnewline : ∀ c ∈ inner, (c != '\n') = true := fun c hc =>
    bne_iff_ne.mpr (h.inner_free c hc).1
  have hcomment : ';' ∉ '[' :: (inner ++ [']']) := by
    simp only [List.mem_cons, List.mem_append, not_or]
    exact ⟨by decide, fun hmem => (h.inner_free _ hmem).2.1 rfl, by decide, List.not_mem_nil⟩
  rw [List.takeWhile_cons_of_pos rfl, List.takeWhile_append_of_pos hnewline,
    List.takeWhile_cons_of_pos rfl, takeWhile_code h.code, List.append_cons, ← List.cons_append,
    takeWhile_code hcomment]
  simp only [List.cons_append, List.append_assoc, List.nil_append]

/-- In an accepted source, what is in brackets is the memory operand of a load or a store. -/
theorem operand_of_bracket (hok : (waiAssembleSource alloc source).1.error = .ok)
    (h : OperandIn source before inner after) :
    ∃ line ∈ sourceLines source, ∃ operand, MemoryToken ('[' :: (inner ++ [']'])) operand ∧
      ('[' :: (inner ++ [']'])) ∈ tokensOf line ∧
      ((tokensOf line).head? = some ['l', 'o', 'a', 'd'] ∨
        (tokensOf line).head? = some ['s', 't', 'o', 'r', 'e']) := by
  -- the token around the bracket
  obtain ⟨u, w, hsplit, hw, hu⟩ := word_at_end (lastLine before)
  obtain ⟨t, v, hsplit', ht, hv⟩ :=
    word_at_start (inner ++ ']' :: (after.takeWhile (· != '\n')).takeWhile (· != ';'))
  have htoken : ∀ c ∈ w ++ '[' :: t, isSeparator c = false :=
    List.forall_mem_append.mpr ⟨hw, List.forall_mem_cons.mpr ⟨rfl, ht⟩⟩
  have hline : (lastLine before ++ ('[' :: (inner ++ ']' :: after)).takeWhile (· != '\n')).takeWhile
      (· != ';') = u ++ ((w ++ '[' :: t) ++ v) := by
    rw [line_of_operand h, hsplit', hsplit]
    simp only [List.append_assoc, List.cons_append]
  obtain ⟨rfl, _, hinner⟩ := h
  obtain ⟨hmnemonic, operand, hmemory⟩ := memory_of_cut hok hline htoken hu hv
    (fun hplain => hplain.1 (List.mem_append_right _ List.mem_cons_self))
  -- it is what stands in the brackets
  obtain ⟨rfl, inner', rfl, hplain⟩ := open_at_start hmemory
  rw [List.append_assoc, List.singleton_append] at hsplit'
  obtain ⟨rfl, rfl⟩ := @first_unique Char _ inner _ inner' v ']'
    (fun hmem => (hinner _ hmem).2.2 rfl) hplain.2 hsplit'
  refine ⟨stripLine (lastLine before ++ ('[' :: (inner ++ ']' :: after)).takeWhile (· != '\n')),
    ?_, operand, hmemory, ?_⟩
  · rw [sourceLines_append, headD_splitOn]
    exact List.mem_append_right _ List.mem_cons_self
  · rw [stripLine, tokensOf_trim, hline]
    exact ⟨mem_tokensOf (List.cons_ne_nil _ _) htoken hu hv, hmnemonic⟩

/-- A padded source is accepted exactly when nothing was inserted; a run of blanks behind the `[`
or before the `]` is an error. -/
theorem padded_same_iff (hok : (waiAssembleSource alloc source).1.error = .ok)
    (h : OperandIn source before inner after) (hleft : ∀ c ∈ left, isspace c = true)
    (hright : ∀ c ∈ right, isspace c = true) :
    SameProgram alloc source (padOperand before left inner right after) ↔
      left = [] ∧ right = [] := by
  constructor
  · rintro ⟨haccepted, _⟩
    cases left with
    | cons c left =>
      exact absurd haccepted (no_blank_after_open h.code (hleft c List.mem_cons_self))
    | nil =>
      refine ⟨rfl, ?_⟩
      rcases List.eq_nil_or_concat' right with rfl | ⟨front, c, rfl⟩
      · rfl
      · have hc : isspace c = true := hright c (List.mem_append_right _ (List.mem_singleton_self c))
        have hfree : ';' ∉ '[' :: (inner ++ (front ++ [c])) := by
          simp only [List.mem_cons, List.mem_append, not_or]
          refine ⟨by decide, fun hmem => (h.inner_free _ hmem).2.1 rfl, fun hmem => ?_, ?_, List.not_mem_nil⟩
          · cases hright ';' (List.mem_append_left _ hmem)
          · rintro rfl
            cases hc
        have hcode := not_comment_append h.code hfree
        rw [← List.cons_append, ← List.append_assoc, ← List.append_assoc] at hcode
        refine absurd ?_ (@no_blank_before_close alloc _ after c hcode hc)
        rw [padOperand] at haccepted
        simpa using haccepted
  · rintro ⟨rfl, rfl⟩
    have hsame : padOperand before [] inner [] after = source := by
      rw [h.source_eq, padOperand, List.nil_append, List.append_nil]
    rw [hsame]
    exact ⟨hok, rfl⟩

end Operand

/-- `load r0, [8]` -/
def loadSource : Text :=
  ['l', 'o', 'a', 'd', ' ', 'r', '0', ',', ' ', '[', '8', ']']

theorem loadSource_operand :
    OperandIn loadSource ['l', 'o', 'a', 'd', ' ', 'r', '0', ',', ' '] ['8'] [] where
  source_eq := rfl
  code := by decide +kernel
  inner_free := List.forall_mem_singleton.mpr (by decide)

theorem loadSource_accepted : (waiAssembleSource .unlimited loadSource).1.error = .ok := by
  decide +kernel

/-- The case of `load r0, [8 ]`. -/
theorem padded_same_iff_load :
    SameProgram .unlimited loadSource
      (padOperand ['l', 'o', 'a', 'd', ' ', 'r', '0', ',', ' '] [] ['8'] [' '] []) ↔
        ([] : Text) = [] ∧ [' '] = [] :=
  padded_same_iff loadSource_accepted loadSource_operand nofun
    (List.forall_mem_singleton.mpr rfl)

/-- `load r0, [ 8]` is not accepted: `tokenize` makes four tokens of it. -/
theorem padding_rejected :
    (waiAssembleSource .unlimited loadSource).1.error = .ok ∧
    OperandIn loadSource ['l', 'o', 'a', 'd', ' ', 'r', '0', ',', ' '] ['8'] [] ∧
    ([' '] ++ ['8'] ++ []).length ≤ 63 ∧
    (waiAssembleSource .unlimited
      ['l', 'o', 'a', 'd', ' ', 'r', '0', ',', ' ', '[', ' ', '8', ']']).1.error = .errParse ∧
    ¬ SameProgram .unlimited loadSource
      (padOperand ['l', 'o', 'a', 'd', ' ', 'r', '0', ',', ' '] [' '] ['8'] [] []) := by
  have hrefused : (waiAssembleSource .unlimited
      ['l', 'o', 'a', 'd', ' ', 'r', '0', ',', ' ', '[', ' ', '8', ']']).1.error = .errParse := by
    decide +kernel
  refine ⟨loadSource_accepted, loadSource_operand, by decide, hrefused, fun hsame => ?_⟩
  cases hsame.1.symm.trans hrefused

end Waivm
