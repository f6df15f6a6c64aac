import Mathlib

/-!
# C strings

The part of `<ctype.h>`, `<string.h>`, `<stdio.h>` and `<stdlib.h>` that a parser of text
lines uses, in the C locale: the character classes, `fgets`, `strtok_r`, and `strtoll` and
`strtoull` with base 0.
A C string is the list of its characters before the terminating NUL, one for each
byte.

Results:

1. `pieces_eq`: the pieces that `strtok_r` hands out are the non-empty fields
   between the delimiters.
2. `strtoll_iff`: `strtoll` reads a whole text without leading blanks exactly when
   it is an integer literal, and then gives its value.
-/

namespace CString

/-- A C string without its terminating NUL. -/
abbrev Text := List Char

/-! ## Character classes -/

/-- The characters from `lo` to `hi`. -/
def between (lo hi c : Char) : Bool :=
  lo.toNat ≤ c.toNat && c.toNat ≤ hi.toNat

/-- `isspace`: the blank and the control characters `\t \n \v \f \r`. -/
def isspace (c : Char) : Bool :=
  c == ' ' || between '\t' '\r' c

/-- `isdigit` -/
def isdigit (c : Char) : Bool :=
  between '0' '9' c

/-- `isalpha` -/
def isalpha (c : Char) : Bool :=
  between 'a' 'z' c || between 'A' 'Z' c

/-- `isalnum` -/
def isalnum (c : Char) : Bool :=
  isalpha c || isdigit c

/-- `snprintf(buffer, size, "%s", text)`: what fits in the buffer before the NUL. -/
def snprintf (size : Nat) (text : Text) : Text :=
  text.take (size - 1)

/-- The C string in a buffer: what stands before its first NUL. -/
def cString (buffer : Text) : Text :=
  buffer.takeWhile (· != Char.ofNat 0)

/-- What `fgets` puts into a buffer with room for `n` characters before the NUL, and the rest
of the stream. It stops behind a newline, when the buffer is full, and at the end. -/
def fgetsFrom : Nat → Text → Text × Text
  | 0, input => ([], input)
  | _ + 1, [] => ([], [])
  | n + 1, c :: rest =>
    if c = '\n' then ([c], rest) else (c :: (fgetsFrom n rest).1, (fgetsFrom n rest).2)

/-- `fgets(buffer, size, stream)`; `none` for the result `NULL` at the end of the stream. -/
def fgets (size : Nat) (input : Text) : Option (Text × Text) :=
  if input = [] then none else some (fgetsFrom (size - 1) input)

/-- A call of `fgets` takes what is left of the line, with the newline behind it, or as much of
it as fits. -/
theorem fgetsFrom_spec (n : Nat) (input : Text) : ∃ ending,
    (fgetsFrom n input).1 = (input.takeWhile (· != '\n')).take n ++ ending ∧
    input = (fgetsFrom n input).1 ++ (fgetsFrom n input).2 ∧
    (ending = ['\n'] ∨ ending = [] ∧
      (((input.takeWhile (· != '\n')).take n).length = n ∨ (fgetsFrom n input).2 = [])) := by
  induction n generalizing input with
  | zero => exact ⟨[], rfl, rfl, .inr ⟨rfl, .inl rfl⟩⟩
  | succ n ih =>
    cases input with
    | nil => exact ⟨[], rfl, rfl, .inr ⟨rfl, .inr rfl⟩⟩
    | cons c rest =>
      rw [fgetsFrom]
      by_cases hc : c = '\n'
      · subst hc
        exact ⟨['\n'], rfl, rfl, .inl rfl⟩
      · obtain ⟨ending, hbuffer, hinput, hending⟩ := ih rest
        have hline : (c :: rest).takeWhile (· != '\n') = c :: rest.takeWhile (· != '\n') :=
          List.takeWhile_cons_of_pos (bne_iff_ne.mpr hc)
        rw [if_neg hc, hline, List.take_succ_cons, List.length_cons]
        refine ⟨ending, ?_, ?_, ?_⟩
        · rw [hbuffer, List.cons_append]
        · exact congrArg (c :: ·) hinput
        · rcases hending with h | ⟨h, h' | h'⟩
          · exact .inl h
          · exact .inr ⟨h, .inl (congrArg (· + 1) h')⟩
          · exact .inr ⟨h, .inr h'⟩

/-! ## Pieces between delimiters -/

section Pieces
variable {α : Type} (isDelim : α → Bool)

/-- What repeated calls of `strtok_r` hand out for the rest of a string, when
`current` was already read of the piece that they are in. A run of delimiters
ends one piece; nothing stands for the empty string between two of them. -/
def piecesFrom : List α → List α → List (List α)
  | current, [] => if current.isEmpty then [] else [current]
  | current, c :: rest =>
    if isDelim c then
      if current.isEmpty then piecesFrom [] rest else current :: piecesFrom [] rest
    else piecesFrom (current ++ [c]) rest

/-- The pieces of a string, from its beginning. -/
def pieces (text : List α) : List (List α) :=
  piecesFrom isDelim [] text

variable {isDelim}

theorem piecesFrom_nil {current : List α} (h : current ≠ []) :
    piecesFrom isDelim current [] = [current] := by
  cases current with
  | nil => exact absurd rfl h
  | cons _ _ => rfl

theorem piecesFrom_cons_delim {current rest : List α} {c : α} (h : current ≠ [])
    (hc : isDelim c = true) :
    piecesFrom isDelim current (c :: rest) = current :: piecesFrom isDelim [] rest := by
  cases current with
  | nil => exact absurd rfl h
  | cons _ _ => rw [piecesFrom, if_pos hc]; rfl

theorem piecesFrom_nil_cons_delim {rest : List α} {c : α} (hc : isDelim c = true) :
    piecesFrom isDelim [] (c :: rest) = piecesFrom isDelim [] rest := by
  rw [piecesFrom, if_pos hc]
  rfl

theorem piecesFrom_cons {current rest : List α} {c : α} (hc : ¬ isDelim c = true) :
    piecesFrom isDelim current (c :: rest) = piecesFrom isDelim (current ++ [c]) rest := by
  rw [piecesFrom, if_neg hc]

theorem piecesFrom_ne_nil {current : List α} (h : current ≠ []) (text : List α) :
    piecesFrom isDelim current text ≠ [] := by
  induction text generalizing current with
  | nil =>
    rw [piecesFrom_nil h]
    exact List.cons_ne_nil _ _
  | cons c rest ih =>
    by_cases hc : isDelim c = true
    · rw [piecesFrom_cons_delim h hc]
      exact List.cons_ne_nil _ _
    · rw [piecesFrom_cons hc]
      exact ih (List.append_ne_nil_of_right_ne_nil _ (List.cons_ne_nil _ _))

theorem piecesFrom_eq (current text : List α) :
    piecesFrom isDelim current text =
      ((text.splitOnP isDelim).modifyHead (current ++ ·)).filter (!·.isEmpty) := by
  induction text generalizing current with
  | nil =>
    rw [piecesFrom, List.splitOnP_nil, List.modifyHead_cons, List.append_nil]
    cases current <;> rfl
  | cons c rest ih =>
    have hnil := ih []
    rw [show (fun field : List α => [] ++ field) = id from rfl, List.modifyHead_id] at hnil
    rw [piecesFrom, List.splitOnP_cons_eq_if_modifyHead]
    split
    · rw [List.modifyHead_cons, List.append_nil, hnil]
      cases current <;> rfl
    · rw [ih, List.modifyHead_modifyHead]
      congr 2
      funext field
      exact List.append_assoc current [c] field

/-- The pieces are the non-empty fields between the delimiters. -/
theorem pieces_eq (text : List α) :
    pieces isDelim text = (text.splitOnP isDelim).filter (!·.isEmpty) := by
  rw [pieces, piecesFrom_eq, show (fun field : List α => [] ++ field) = id from rfl,
    List.modifyHead_id, id]

/-- No field holds a delimiter. -/
theorem not_isDelim_of_mem_splitOnP {text field : List α} {c : α}
    (hfield : field ∈ text.splitOnP isDelim) (hc : c ∈ field) : isDelim c = false := by
  induction text generalizing field with
  | nil =>
    rw [List.splitOnP_nil, List.mem_singleton] at hfield
    rw [hfield] at hc
    cases hc
  | cons d rest ih =>
    rw [List.splitOnP_cons_eq_if_modifyHead] at hfield
    split at hfield
    · rcases List.mem_cons.mp hfield with rfl | hrest
      · cases hc
      · exact ih hrest hc
    · next hd =>
      obtain ⟨first, fields, hsplit⟩ := List.exists_cons_of_ne_nil (List.splitOnP_ne_nil isDelim rest)
      rw [hsplit, List.modifyHead_cons] at hfield
      rcases List.mem_cons.mp hfield with rfl | hrest
      · rcases List.mem_cons.mp hc with rfl | hc
        · exact Bool.eq_false_iff.mpr hd
        · exact ih (hsplit ▸ List.mem_cons_self) hc
      · exact ih (hsplit ▸ List.mem_cons_of_mem _ hrest) hc

theorem mem_pieces {text piece : List α} (h : piece ∈ pieces isDelim text) :
    piece ≠ [] ∧ ∀ c ∈ piece, isDelim c = false := by
  rw [pieces_eq, List.mem_filter] at h
  refine ⟨?_, fun c hc => not_isDelim_of_mem_splitOnP h.1 hc⟩
  rintro rfl
  cases h.2

/-- The pieces and the characters that end them fit in the text. -/
theorem length_piecesFrom_le (current text : List α) :
    (piecesFrom isDelim current text).length ≤ text.length + 1 ∧
      ∀ piece ∈ piecesFrom isDelim current text, piece.length ≤ current.length + text.length := by
  induction text generalizing current with
  | nil =>
    rw [piecesFrom]
    split
    · exact ⟨Nat.zero_le _, fun _ h => by cases h⟩
    · refine ⟨le_rfl, fun piece hpiece => ?_⟩
      rw [List.mem_singleton.mp hpiece]
      exact Nat.le_add_right _ _
  | cons c rest ih =>
    obtain ⟨hcount, hlength⟩ := ih []
    have hrest : ∀ piece ∈ piecesFrom isDelim [] rest, piece.length ≤ current.length + (rest.length + 1) :=
      fun piece hpiece => by
        have h := hlength piece hpiece
        rw [List.length_nil] at h
        omega
    rw [piecesFrom, List.length_cons]
    split
    · split
      · exact ⟨Nat.le_succ_of_le hcount, hrest⟩
      · rw [List.length_cons, List.forall_mem_cons]
        exact ⟨Nat.succ_le_succ hcount, Nat.le_add_right _ _, hrest⟩
    · obtain ⟨hcount, hlength⟩ := ih (current ++ [c])
      refine ⟨Nat.le_succ_of_le hcount, fun piece hpiece => ?_⟩
      have h := hlength piece hpiece
      rw [List.length_append, List.length_singleton] at h
      omega

theorem length_pieces_le (text : List α) : (pieces isDelim text).length ≤ text.length + 1 :=
  (length_piecesFrom_le [] text).1

theorem length_le_of_mem_pieces {text piece : List α} (h : piece ∈ pieces isDelim text) :
    piece.length ≤ text.length :=
  Nat.le_trans ((length_piecesFrom_le [] text).2 piece h) (Nat.zero_add _).le

/-- A character that is no delimiter is in a piece. -/
theorem exists_piece_of_mem {text : List α} {c : α} (hc : c ∈ text) (hdelim : isDelim c = false) :
    ∃ piece ∈ pieces isDelim text, c ∈ piece := by
  have hfield : ∃ field ∈ text.splitOnP isDelim, c ∈ field := by
    induction text with
    | nil => cases hc
    | cons d rest ih =>
      rw [List.splitOnP_cons_eq_if_modifyHead]
      split
      · next hd =>
        rcases List.mem_cons.mp hc with rfl | hrest
        · rw [hdelim] at hd
          cases hd
        · obtain ⟨field, hfield, hmem⟩ := ih hrest
          exact ⟨field, List.mem_cons_of_mem _ hfield, hmem⟩
      · obtain ⟨first, fields, hsplit⟩ :=
          List.exists_cons_of_ne_nil (List.splitOnP_ne_nil isDelim rest)
        rw [hsplit, List.modifyHead_cons]
        rcases List.mem_cons.mp hc with rfl | hrest
        · exact ⟨_, List.mem_cons_self, List.mem_cons_self⟩
        · obtain ⟨field, hfield, hmem⟩ := ih hrest
          rw [hsplit] at hfield
          rcases List.mem_cons.mp hfield with rfl | hfield
          · exact ⟨_, List.mem_cons_self, List.mem_cons_of_mem _ hmem⟩
          · exact ⟨field, List.mem_cons_of_mem _ hfield, hmem⟩
  obtain ⟨field, hfield, hmem⟩ := hfield
  rw [pieces_eq]
  refine ⟨field, List.mem_filter.mpr ⟨hfield, ?_⟩, hmem⟩
  cases field with
  | nil => cases hmem
  | cons _ _ => rfl

/-- There is no piece exactly when every character is a delimiter. -/
theorem pieces_eq_nil_iff {text : List α} :
    pieces isDelim text = [] ↔ ∀ c ∈ text, isDelim c = true := by
  constructor
  · rw [pieces_eq, List.filter_eq_nil_iff]
    intro h
    induction text with
    | nil => exact fun _ hc => nomatch hc
    | cons d rest ih =>
      rw [List.splitOnP_cons_eq_if_modifyHead] at h
      split at h
      · next hd =>
        rw [List.forall_mem_cons] at h ⊢
        exact ⟨hd, ih h.2⟩
      · obtain ⟨first, fields, hsplit⟩ :=
          List.exists_cons_of_ne_nil (List.splitOnP_ne_nil isDelim rest)
        rw [hsplit, List.modifyHead_cons] at h
        exact absurd rfl (h _ List.mem_cons_self)
  · intro h
    induction text with
    | nil => rfl
    | cons d rest ih =>
      rw [List.forall_mem_cons] at h
      rw [pieces, piecesFrom, if_pos h.1]
      exact ih h.2

end Pieces

/-! ## Integer literals -/

/-- `isxdigit` -/
def isxdigit (c : Char) : Bool :=
  isdigit c || between 'a' 'f' c || between 'A' 'F' c

/-- The value of a digit; 36 for a character that is none. -/
def digitValue (c : Char) : Nat :=
  if isdigit c then c.toNat - '0'.toNat
  else if between 'a' 'z' c then c.toNat - 'a'.toNat + 10
  else if between 'A' 'Z' c then c.toNat - 'A'.toNat + 10
  else 36

/-- The value of a row of digits. -/
def digitsValue (base : Nat) (digits : Text) : Nat :=
  digits.foldl (fun value c => value * base + digitValue c) 0

/-- The base that the beginning of a text selects when `strtoll` is called with base
0, and where its digits begin. `0x` selects base 16 only when a hexadecimal digit
follows; otherwise its `0` is a number by itself. -/
def baseOf : Text → Nat × Text
  | '0' :: x :: c :: rest =>
    if (x = 'x' ∨ x = 'X') ∧ digitValue c < 16 then (16, c :: rest) else (8, '0' :: x :: c :: rest)
  | '0' :: rest => (8, '0' :: rest)
  | text => (10, text)

/-- The number that the digits at the beginning of a text make and the text behind
them; `none` when no digit stands there. -/
def readDigits (base : Nat) (text : Text) : Option (Nat × Text) :=
  if text.takeWhile (digitValue · < base) = [] then none
  else some (digitsValue base (text.takeWhile (digitValue · < base)),
    text.dropWhile (digitValue · < base))

/-- The number without a sign at the beginning of a text. -/
def magnitude (text : Text) : Option (Nat × Text) :=
  readDigits (baseOf text).1 (baseOf text).2

/-- The sign at the beginning of a text, and the text behind it. -/
def signOf : Text → Bool × Text
  | '-' :: rest => (true, rest)
  | '+' :: rest => (false, rest)
  | text => (false, text)

/-- `strtoll(text, &end, 0)` before it clamps its value to the range of `long long`:
the value, and the text at `end`. `none` when it finds no number. -/
def strtoll (text : Text) : Option (Int × Text) :=
  let signed := signOf (text.dropWhile isspace)
  (magnitude signed.2).map fun number => (if signed.1 then -number.1 else number.1, number.2)

/-- `strtoull(text, &end, 0)`: the value, and the text at `end`. A minus sign negates the
value in the type `unsigned long long`; a number that exceeds it gives `ULLONG_MAX`. -/
def strtoull (text : Text) : Option (BitVec 64 × Text) :=
  (strtoll text).map fun number =>
    (if 2 ^ 64 ≤ number.1.natAbs then BitVec.allOnes 64 else BitVec.ofInt 64 number.1, number.2)

/-- A number without a sign, in C's notation. -/
inductive Numeral : Text → Nat → Prop
  | decimal {c : Char} {digits : Text} (hc : between '1' '9' c = true)
      (hdigits : ∀ d ∈ digits, isdigit d = true) :
      Numeral (c :: digits) (digitsValue 10 (c :: digits))
  | octal {digits : Text} (hdigits : ∀ d ∈ digits, between '0' '7' d = true) :
      Numeral ('0' :: digits) (digitsValue 8 digits)
  | hexadecimal {x d : Char} {digits : Text} (hx : x = 'x' ∨ x = 'X')
      (hdigits : ∀ e ∈ d :: digits, isxdigit e = true) :
      Numeral ('0' :: x :: d :: digits) (digitsValue 16 (d :: digits))

/-- A number with an optional sign. -/
inductive Literal : Text → Int → Prop
  | bare {text : Text} {n : Nat} (h : Numeral text n) : Literal text n
  | plus {text : Text} {n : Nat} (h : Numeral text n) : Literal ('+' :: text) n
  | minus {text : Text} {n : Nat} (h : Numeral text n) : Literal ('-' :: text) (-n)

theorem digitValue_lt_eight (c : Char) : digitValue c < 8 ↔ between '0' '7' c = true := by
  simp only [digitValue, isdigit, between, Bool.and_eq_true, decide_eq_true_eq, Char.reduceToNat]
  split_ifs <;> omega

theorem digitValue_lt_ten (c : Char) : digitValue c < 10 ↔ isdigit c = true := by
  simp only [digitValue, isdigit, between, Bool.and_eq_true, decide_eq_true_eq, Char.reduceToNat]
  split_ifs <;> omega

theorem digitValue_lt_sixteen (c : Char) : digitValue c < 16 ↔ isxdigit c = true := by
  simp only [digitValue, isxdigit, isdigit, between, Bool.and_eq_true, Bool.or_eq_true,
    decide_eq_true_eq, Char.reduceToNat]
  split_ifs <;> omega

/-- A text is read to its end exactly when every character of it is a digit. -/
theorem readDigits_iff {base : Nat} {text : Text} {n : Nat} :
    readDigits base text = some (n, []) ↔
      text ≠ [] ∧ (∀ c ∈ text, digitValue c < base) ∧ n = digitsValue base text := by
  have hall : text.dropWhile (digitValue · < base) = [] ↔ ∀ c ∈ text, digitValue c < base := by
    rw [List.dropWhile_eq_nil_iff]
    exact forall₂_congr fun _ _ => decide_eq_true_iff
  have htake (h : ∀ c ∈ text, digitValue c < base) : text.takeWhile (digitValue · < base) = text :=
    List.takeWhile_eq_self_iff.mpr fun c hc => decide_eq_true (h c hc)
  unfold readDigits
  constructor
  · intro h
    split at h
    · cases h
    · next hne =>
      obtain ⟨hn, hrest⟩ := Prod.mk.inj (Option.some.inj h)
      have hdigits := hall.mp hrest
      rw [htake hdigits] at hne hn
      exact ⟨hne, hdigits, hn.symm⟩
  · rintro ⟨hne, hdigits, rfl⟩
    rw [htake hdigits, hall.mpr hdigits, if_neg hne]

/-! The base that the prefix of a numeral selects, and the digits behind the prefix. -/

theorem baseOf_decimal {c : Char} (hc : between '1' '9' c = true) (digits : Text) :
    baseOf (c :: digits) = (10, c :: digits) := by
  unfold baseOf
  split
  · next heq => cases heq; cases hc
  · next heq => cases heq; cases hc
  · rfl

theorem baseOf_octal {digits : Text} (hdigits : ∀ d ∈ digits, between '0' '7' d = true) :
    baseOf ('0' :: digits) = (8, '0' :: digits) := by
  unfold baseOf
  split
  · next x c rest heq =>
    cases heq
    rw [if_neg]
    rintro ⟨hx, _⟩
    have hdigit := hdigits x List.mem_cons_self
    rcases hx with rfl | rfl <;> cases hdigit
  · next heq => cases heq; rfl
  · next _ hno => exact absurd rfl (hno _)

theorem baseOf_hexadecimal {x d : Char} (hx : x = 'x' ∨ x = 'X') (hd : digitValue d < 16)
    (digits : Text) : baseOf ('0' :: x :: d :: digits) = (16, d :: digits) := by
  rw [baseOf, if_pos ⟨hx, hd⟩]

theorem signOf_decimal {c : Char} (hc : between '1' '9' c = true) (digits : Text) :
    signOf (c :: digits) = (false, c :: digits) := by
  unfold signOf
  split
  · next heq => cases heq; cases hc
  · next heq => cases heq; cases hc
  · rfl

theorem magnitude_iff {text : Text} {n : Nat} :
    magnitude text = some (n, []) ↔ Numeral text n := by
  rw [magnitude, readDigits_iff]
  constructor
  · rintro ⟨hne, hdigits, rfl⟩
    revert hne hdigits
    fun_cases baseOf text with
    | case1 x c rest h =>
      intro _ hdigits
      exact .hexadecimal h.1 fun d hd => (digitValue_lt_sixteen d).mp (hdigits d hd)
    | case2 x c rest h =>
      intro _ hdigits
      exact .octal fun d hd => (digitValue_lt_eight d).mp (hdigits d (List.mem_cons_of_mem _ hd))
    | case3 rest =>
      intro _ hdigits
      exact .octal fun d hd => (digitValue_lt_eight d).mp (hdigits d (List.mem_cons_of_mem _ hd))
    | case4 text hlong hzero =>
      intro hne hdigits
      obtain ⟨c, rest, rfl⟩ := List.exists_cons_of_ne_nil hne
      have hc : isdigit c = true := (digitValue_lt_ten c).mp (hdigits c List.mem_cons_self)
      refine .decimal ?_ fun d hd => (digitValue_lt_ten d).mp (hdigits d (List.mem_cons_of_mem _ hd))
      have hc0 : c.toNat ≠ '0'.toNat := fun h => hzero rest (by rw [Char.toNat_inj.mp h])
      simp only [isdigit, between, Bool.and_eq_true, decide_eq_true_eq, Char.reduceToNat] at hc hc0 ⊢
      omega
  · intro h
    cases h with
    | @decimal c digits hc hdigits =>
      rw [baseOf_decimal hc]
      refine ⟨List.cons_ne_nil _ _, ?_, rfl⟩
      rw [List.forall_mem_cons]
      refine ⟨(digitValue_lt_ten c).mpr ?_, fun d hd => (digitValue_lt_ten d).mpr (hdigits d hd)⟩
      simp only [isdigit, between, Bool.and_eq_true, decide_eq_true_eq, Char.reduceToNat] at hc ⊢
      omega
    | @octal digits hdigits =>
      rw [baseOf_octal hdigits]
      refine ⟨List.cons_ne_nil _ _, ?_, rfl⟩
      rw [List.forall_mem_cons]
      exact ⟨show digitValue '0' < 8 by decide, fun d hd => (digitValue_lt_eight d).mpr (hdigits d hd)⟩
    | @hexadecimal x d digits hx hdigits =>
      have hd : digitValue d < 16 := (digitValue_lt_sixteen d).mpr (hdigits d List.mem_cons_self)
      rw [baseOf_hexadecimal hx hd]
      exact ⟨List.cons_ne_nil _ _, fun e he => (digitValue_lt_sixteen e).mpr (hdigits e he), rfl⟩

/-- `strtoll` reads a whole text that begins with no blank exactly when it is an
integer literal. -/
theorem strtoll_iff {text : Text} {value : Int} (hblank : ∀ c ∈ text.head?, isspace c = false) :
    strtoll text = some (value, []) ↔ Literal text value := by
  have hskip : text.dropWhile isspace = text := by
    cases text with
    | nil => rfl
    | cons c rest => rw [List.dropWhile_cons_of_neg (by rw [hblank c rfl]; exact Bool.false_ne_true)]
  have hread : strtoll text = some (value, []) ↔ ∃ n, Numeral (signOf text).2 n ∧
      (if (signOf text).1 then -(n : Int) else n) = value := by
    rw [strtoll, hskip]
    simp only [Option.map_eq_some_iff, Prod.exists, Prod.mk.injEq]
    constructor
    · rintro ⟨n, rest, hmag, hvalue, rfl⟩
      exact ⟨n, magnitude_iff.mp hmag, hvalue⟩
    · rintro ⟨n, hn, hvalue⟩
      exact ⟨n, [], magnitude_iff.mpr hn, hvalue, rfl⟩
  rw [hread]
  constructor
  · rintro ⟨n, hn, rfl⟩
    revert hn
    fun_cases signOf text with
    | case1 rest => exact .minus
    | case2 rest => exact .plus
    | case3 text hminus hplus => exact .bare
  · intro h
    cases h with
    | @bare text n hn =>
      refine ⟨n, ?_⟩
      cases hn with
      | @decimal c digits hc hdigits =>
        rw [signOf_decimal hc]
        exact ⟨.decimal hc hdigits, rfl⟩
      | octal hdigits => exact ⟨.octal hdigits, rfl⟩
      | hexadecimal hx hdigits => exact ⟨.hexadecimal hx hdigits, rfl⟩
    | @plus rest n hn => exact ⟨n, hn, rfl⟩
    | @minus rest n hn => exact ⟨n, hn, rfl⟩

end CString
