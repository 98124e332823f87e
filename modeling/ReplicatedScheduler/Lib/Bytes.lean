import Mathlib.Data.BitVec
import Mathlib.Tactic.Common

/-!
# Words and strings in memory

Words of 32 bits are stored in one of two byte orders, and a machine of the other order reads
them flipped (`read_write`). A string is stored in a field of a fixed width, padded with zeros.

A reader takes what it reads from the front of the input, or fails.
-/

namespace Lib

abbrev Bytes := List (BitVec 8)

/-! ## Words -/

/-- The word with these bytes, the most significant one first. -/
def word (a b c d : BitVec 8) : BitVec 32 :=
  (a.setWidth 32 <<< 24) ||| (b.setWidth 32 <<< 16) ||| (c.setWidth 32 <<< 8) ||| d.setWidth 32

/-- The eight bits of a word from bit `k` on. -/
def byteAt (w : BitVec 32) (k : ℕ) : BitVec 8 := (w >>> k).setWidth 8

theorem word_byteAt (w : BitVec 32) :
    word (byteAt w 24) (byteAt w 16) (byteAt w 8) (byteAt w 0) = w := by
  unfold word byteAt
  ext i hi
  simp
  grind

theorem byteAt_word (a b c d : BitVec 8) :
    byteAt (word a b c d) 24 = a ∧ byteAt (word a b c d) 16 = b ∧
      byteAt (word a b c d) 8 = c ∧ byteAt (word a b c d) 0 = d := by
  unfold word byteAt
  refine ⟨?_, ?_, ?_, ?_⟩ <;> ext i hi <;> simp <;> grind

/-- The word with its bytes in the other order. -/
def flipInt32 (i : BitVec 32) : BitVec 32 :=
  ((i.sshiftRight 24) &&& 0x000000ff#32) ||| ((i.sshiftRight 8) &&& 0x0000ff00#32) |||
    ((i <<< 8) &&& 0x00ff0000#32) ||| ((i <<< 24) &&& 0xff000000#32)

/-- A mask of eight bits keeps one byte. -/
theorem and_mask (w : BitVec 32) (k : ℕ) :
    w &&& ((BitVec.allOnes 8).setWidth 32 <<< k) = (byteAt w k).setWidth 32 <<< k := by
  unfold byteAt
  ext i hi
  simp only [BitVec.getElem_and, BitVec.getElem_shiftLeft, BitVec.getElem_setWidth,
    BitVec.getLsbD_allOnes, BitVec.getLsbD_setWidth, BitVec.getLsbD_ushiftRight]
  grind

theorem byteAt_sshiftRight (w : BitVec 32) {m k : ℕ} (h : k + m + 8 ≤ 32) :
    byteAt (w.sshiftRight m) k = byteAt w (k + m) := by
  unfold byteAt
  ext i hi
  simp only [BitVec.getElem_setWidth, BitVec.getLsbD_ushiftRight, BitVec.getLsbD_sshiftRight]
  grind

theorem byteAt_shiftLeft (w : BitVec 32) {m k : ℕ} (h : k + 8 ≤ 32) (hm : m ≤ k) :
    byteAt (w <<< m) k = byteAt w (k - m) := by
  unfold byteAt
  ext i hi
  simp only [BitVec.getElem_setWidth, BitVec.getLsbD_ushiftRight, BitVec.getLsbD_shiftLeft]
  grind

theorem flipInt32_eq_word (w : BitVec 32) :
    flipInt32 w = word (byteAt w 0) (byteAt w 8) (byteAt w 16) (byteAt w 24) := by
  have h₀ : 0x000000ff#32 = (BitVec.allOnes 8).setWidth 32 <<< 0 := by decide
  have h₁ : 0x0000ff00#32 = (BitVec.allOnes 8).setWidth 32 <<< 8 := by decide
  have h₂ : 0x00ff0000#32 = (BitVec.allOnes 8).setWidth 32 <<< 16 := by decide
  have h₃ : 0xff000000#32 = (BitVec.allOnes 8).setWidth 32 <<< 24 := by decide
  rw [flipInt32, h₀, h₁, h₂, h₃, and_mask, and_mask, and_mask, and_mask,
    byteAt_sshiftRight w (by omega), byteAt_sshiftRight w (by omega),
    byteAt_shiftLeft w (by omega) (by omega), byteAt_shiftLeft w (by omega) (by omega)]
  simp only [word, BitVec.shiftLeft_zero, Nat.zero_add, Nat.sub_self,
    show 8 + 8 = 16 from rfl, show 16 - 8 = 8 from rfl]
  grind

@[simp] theorem flipInt32_word (a b c d : BitVec 8) : flipInt32 (word a b c d) = word d c b a := by
  obtain ⟨h₃, h₂, h₁, h₀⟩ := byteAt_word a b c d
  rw [flipInt32_eq_word, h₀, h₁, h₂, h₃]

@[simp] theorem flipInt32_flipInt32 (w : BitVec 32) : flipInt32 (flipInt32 w) = w := by
  rw [flipInt32_eq_word w, flipInt32_word, word_byteAt]

theorem byteAt_and (w v : BitVec 32) (k : ℕ) : byteAt (w &&& v) k = byteAt w k &&& byteAt v k := by
  unfold byteAt
  ext i hi
  simp only [BitVec.getElem_setWidth, BitVec.getElem_and, BitVec.getLsbD_ushiftRight,
    BitVec.getLsbD_and]

theorem word_and (a b c d a' b' c' d' : BitVec 8) :
    word a b c d &&& word a' b' c' d' = word (a &&& a') (b &&& b') (c &&& c') (d &&& d') := by
  unfold word
  ext i hi
  simp only [BitVec.getElem_and, BitVec.getElem_or, BitVec.getElem_shiftLeft,
    BitVec.getElem_setWidth, BitVec.getLsbD_and]
  grind

theorem flipInt32_and (w v : BitVec 32) : flipInt32 (w &&& v) = flipInt32 w &&& flipInt32 v := by
  simp only [flipInt32_eq_word, byteAt_and, word_and]

/-! ## Byte orders -/

inductive ByteOrder
  | big
  | little
  deriving DecidableEq, Repr

namespace ByteOrder

/-- A word in memory. -/
def write : ByteOrder → BitVec 32 → Bytes
  | big, w => [byteAt w 24, byteAt w 16, byteAt w 8, byteAt w 0]
  | little, w => [byteAt w 0, byteAt w 8, byteAt w 16, byteAt w 24]

/-- The word at the front of the input. -/
def read : ByteOrder → Bytes → Option (BitVec 32 × Bytes)
  | big, a :: b :: c :: d :: rest => some (word a b c d, rest)
  | little, a :: b :: c :: d :: rest => some (word d c b a, rest)
  | _, _ => none

@[simp] theorem length_write (o : ByteOrder) (w : BitVec 32) : (o.write w).length = 4 := by
  cases o <;> rfl

/-- The value that a machine of order `o` reads where one of order `o'` wrote `w`. -/
def seen (o o' : ByteOrder) (w : BitVec 32) : BitVec 32 := if o = o' then w else flipInt32 w

@[simp] theorem seen_self (o : ByteOrder) (w : BitVec 32) : seen o o w = w := if_pos rfl

theorem seen_of_ne {o o' : ByteOrder} (h : o ≠ o') (w : BitVec 32) : seen o o' w = flipInt32 w :=
  if_neg h

/-- **A machine of the other order reads a word flipped.** -/
theorem read_write (o o' : ByteOrder) (w : BitVec 32) (rest : Bytes) :
    o.read (o'.write w ++ rest) = some (seen o o' w, rest) := by
  cases o <;> cases o' <;> simp [write, read, seen, word_byteAt, flipInt32_eq_word]

/-- What one machine reads of a word and writes again is what another machine reads of it. -/
theorem seen_seen (o o' o'' : ByteOrder) (w : BitVec 32) :
    seen o o' (seen o' o'' w) = seen o o'' w := by
  cases o <;> cases o' <;> cases o'' <;> simp [seen]

end ByteOrder

/-! ## Strings -/

/-- A string in a field of `width` bytes, cut off or padded with zeros. -/
def field (width : ℕ) (s : Bytes) : Bytes := s.take width ++ List.replicate (width - s.length) 0

/-- The string that begins here: all before the first zero. -/
def cString (bytes : Bytes) : Bytes := bytes.takeWhile fun b => b ≠ 0

/-- The next `k` bytes. -/
def readBytes (k : ℕ) (input : Bytes) : Option (Bytes × Bytes) :=
  if k ≤ input.length then some (input.take k, input.drop k) else none

@[simp] theorem length_field (width : ℕ) (s : Bytes) : (field width s).length = width := by
  rw [field, List.length_append, List.length_take, List.length_replicate]
  omega

theorem readBytes_append {k : ℕ} {bytes : Bytes} (h : bytes.length = k) (rest : Bytes) :
    readBytes k (bytes ++ rest) = some (bytes, rest) := by
  subst h
  rw [readBytes, if_pos (by rw [List.length_append]; omega), List.take_left, List.drop_left]

/-- **A string comes back from its field**, and from anything that begins with it, if it has no
zero in it and is shorter than the field. -/
theorem cString_field {width : ℕ} {s : Bytes} (hs : 0 ∉ s) (hlen : s.length < width)
    (rest : Bytes) : cString (field width s ++ rest) = s := by
  obtain ⟨k, hk⟩ : ∃ k, width - s.length = k + 1 := ⟨width - s.length - 1, by omega⟩
  rw [field, List.take_of_length_le (Nat.le_of_lt hlen), hk, List.replicate_succ,
    List.append_assoc, cString, List.takeWhile_append_of_pos]
  · simp
  · intro b hb
    simpa using fun h : b = 0 => hs (h ▸ hb)

end Lib
