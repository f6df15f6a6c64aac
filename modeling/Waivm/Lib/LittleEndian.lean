import Mathlib

/-!
# Little-endian words

A word of `w` bits as the sequence of its bytes, lowest first: `byteAt v i` is
byte `i` of `v`, and `join w n f` puts the bytes `f 0, …, f (n - 1)` together
the way a C loop does, by or-ing shifted bytes into an accumulator.

Results:
1. `join_byteAt` and `byteAt_join`: the two are inverse when the `n` bytes are
   exactly the word; `join_congr`: only the first `n` bytes matter.
2. `wordAt_append` and `bytes_wordAt`: reading a word out of a list of bytes and
   writing its bytes are inverse.
-/

namespace LittleEndian

abbrev Byte := BitVec 8

variable {w n : Nat}

/-- Byte `i` of the word `v`, the lowest byte being byte `0`. -/
def byteAt (v : BitVec w) (i : Nat) : Byte :=
  (v >>> (i * 8)).setWidth 8

/-- The word with the bytes `f 0, …, f (n - 1)`:
`for (i = 0; i < n; i++) raw |= (uint_t)f[i] << (i * 8)`. -/
def join (w n : Nat) (f : Nat → Byte) : BitVec w :=
  (List.range n).foldl (fun raw i => raw ||| (f i).setWidth w <<< (i * 8)) 0

/-- The first `n` bytes of `v`, lowest first. -/
def bytes (n : Nat) (v : BitVec w) : List Byte :=
  (List.range n).map (byteAt v)

theorem join_succ (f : Nat → Byte) :
    join w (n + 1) f = join w n f ||| (f n).setWidth w <<< (n * 8) := by
  simp only [join, List.range_succ, List.foldl_append, List.foldl_cons, List.foldl_nil]

theorem getLsbD_byteAt (v : BitVec w) (i j : Nat) :
    (byteAt v i).getLsbD j = (decide (j < 8) && v.getLsbD (i * 8 + j)) := by
  simp [byteAt]

theorem getLsbD_join (f : Nat → Byte) (k : Nat) :
    (join w n f).getLsbD k =
      (decide (k < w) && decide (k < n * 8) && (f (k / 8)).getLsbD (k % 8)) := by
  induction n with
  | zero => simp [join]
  | succ n ih =>
    rw [join_succ, BitVec.getLsbD_or, ih]
    simp only [BitVec.getLsbD_shiftLeft, BitVec.getLsbD_setWidth]
    rcases Nat.lt_or_ge k (n * 8) with hlt | hge
    · have h1 : k < (n + 1) * 8 := by omega
      simp [hlt, h1]
    · have h1 : ¬ k < n * 8 := by omega
      rcases Nat.lt_or_ge k ((n + 1) * 8) with h2 | h2
      · have hdiv : k / 8 = n := by omega
        have hmod : k % 8 = k - n * 8 := by omega
        by_cases hw : k < w
        · have hw' : k - n * 8 < w := by omega
          simp [h1, h2, hdiv, hmod, hw, hw']
        · simp [hw]
      · have h3 : ¬ k < (n + 1) * 8 := by omega
        have h4 : (f n).getLsbD (k - n * 8) = false :=
          BitVec.getLsbD_of_ge _ _ (by omega)
        simp [h1, h3, h4]

/-- Splitting a word into enough bytes and joining them gives it back. -/
theorem join_byteAt (v : BitVec w) (hw : w ≤ n * 8) : join w n (byteAt v) = v := by
  apply BitVec.eq_of_getLsbD_eq
  intro k hk
  rw [getLsbD_join, getLsbD_byteAt]
  have h1 : k < n * 8 := by omega
  have h2 : k % 8 < 8 := Nat.mod_lt _ (by omega)
  have h3 : k / 8 * 8 + k % 8 = k := by omega
  simp [hk, h1, h2, h3]

/-- The bytes of a joined word are the bytes it was joined from. -/
theorem byteAt_join (f : Nat → Byte) (hw : n * 8 ≤ w) {i : Nat} (hi : i < n) :
    byteAt (join w n f) i = f i := by
  apply BitVec.eq_of_getLsbD_eq
  intro j hj
  rw [getLsbD_byteAt, getLsbD_join]
  have h1 : i * 8 + j < w := by omega
  have h2 : i * 8 + j < n * 8 := by omega
  have h3 : (i * 8 + j) / 8 = i := by omega
  have h4 : (i * 8 + j) % 8 = j := by omega
  simp [hj, h1, h2, h3, h4]

theorem join_congr {f g : Nat → Byte} (h : ∀ i, i < n → f i = g i) :
    join w n f = join w n g := by
  induction n with
  | zero => rfl
  | succ n ih =>
    rw [join_succ, join_succ, h n (by omega), ih fun i hi => h i (by omega)]

@[simp] theorem length_bytes (v : BitVec w) : (bytes n v).length = n := by
  simp [bytes]

/-- The word stored in `n` bytes of `l` from `offset` on. -/
def wordAt (w n : Nat) (l : List Byte) (offset : Nat) : BitVec w :=
  join w n fun i => l.getD (offset + i) 0

/-- Reading a word where its bytes were written. -/
theorem wordAt_append (v : BitVec w) (hw : w ≤ n * 8) (before after : List Byte) :
    wordAt w n (before ++ (bytes n v ++ after)) before.length = v := by
  rw [← join_byteAt v hw]
  refine join_congr fun i hi => ?_
  rw [join_byteAt v hw, List.getD_append_right _ _ _ _ (Nat.le_add_right _ _),
    Nat.add_sub_cancel_left, List.getD_append _ _ _ _ ((length_bytes v).symm ▸ hi)]
  simp [bytes, List.getD_eq_getElem?_getD, hi]

/-- The bytes a word was read from are its bytes. -/
theorem bytes_wordAt (l : List Byte) {offset : Nat} (hl : offset + n ≤ l.length)
    (hw : n * 8 ≤ w) : bytes n (wordAt w n l offset) = (l.drop offset).take n := by
  apply List.ext_getElem
  · rw [length_bytes, List.length_take, List.length_drop]
    omega
  · intro i h1 h2
    have hi : i < n := by simpa using h1
    have hin : offset + i < l.length := by omega
    simp only [bytes, List.getElem_map, List.getElem_range, wordAt]
    rw [byteAt_join _ hw hi]
    simp [List.getD_eq_getElem?_getD, hin]

end LittleEndian
