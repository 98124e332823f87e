import ReplicatedScheduler.Lib.HashMap

/-!
# Java's integers, strings and exceptions

Strings are sequences of UTF-16 code units, so that `String.hashCode` can be computed and every
Java string is one. A reference that may be null is an `Option`.
-/

namespace JavaLib

/-- `int`. -/
abbrev JavaInt := BitVec 32

/-- `size()` of a collection, an `int` that is counted up. -/
def sizeInt (n : ℕ) : JavaInt := BitVec.ofNat 32 n

/-- How often a loop from 0 to below `n` runs. -/
def iterations (n : JavaInt) : ℕ := n.toInt.toNat

/-- A loop over all elements, unless there are too many to count. -/
theorem iterations_sizeInt {n : ℕ} (h : n < 2 ^ 31) : iterations (sizeInt n) = n := by
  have hnat : (sizeInt n).toNat = n := by
    rw [sizeInt, BitVec.toNat_ofNat, Nat.mod_eq_of_lt (by omega)]
  rw [iterations, BitVec.toInt_eq_toNat_of_lt (by omega), Int.toNat_natCast, hnat]

/-- `String`: its UTF-16 code units. -/
abbrev JavaString := List (BitVec 16)

/-- A string literal of characters that are one code unit each. -/
def str (s : String) : JavaString := s.toList.map fun c => BitVec.ofNat 16 c.toNat

/-- `"" + s`, where null reads `null`. -/
def showNullable (s : Option JavaString) : JavaString := s.getD (str "null")

/-- Strings are equal if they have the same code units. -/
instance : LawfulBEq JavaString := inferInstance

instance : HashCode JavaString := ⟨fun s => s.foldl (fun h c => 31 * h + c.setWidth 32) 0⟩

/-- `Objects.hash(o)` of one object, `31 * 1 + o.hashCode()` with 0 for null. -/
def objectsHash {α : Type*} [HashCode α] (o : Option α) : BitVec 32 :=
  31 + (o.map HashCode.hashCode).getD 0

/-- The exceptions of the program and of the library classes it calls. -/
inductive ExceptionClass
  | repeatedTaskException
  | noSuchElementException
  | nullPointerException
  | concurrentModificationException
  | classCastException
  deriving DecidableEq, Repr

structure JavaException where
  cls : ExceptionClass
  message : Option JavaString := none
  deriving DecidableEq, Repr

/-! ## Every hash occurs -/

theorem hashCode_append (s : JavaString) (c : BitVec 16) :
    HashCode.hashCode (s ++ [c]) = 31 * HashCode.hashCode s + c.setWidth 32 := by
  show (s ++ [c]).foldl _ _ = _
  rw [List.foldl_append]
  rfl

/-- Base-31 digits spell a string with any given hash. -/
theorem exists_hashCode_eq (h : BitVec 32) : ∃ s : JavaString, HashCode.hashCode s = h := by
  have key : ∀ n : ℕ, ∃ s : JavaString, HashCode.hashCode s = BitVec.ofNat 32 n := by
    intro n
    induction n using Nat.strongRecOn with
    | ind n ih =>
      by_cases hn : n = 0
      · exact ⟨[], by rw [hn]; rfl⟩
      · obtain ⟨s, hs⟩ := ih (n / 31) (by omega)
        refine ⟨s ++ [BitVec.ofNat 16 (n % 31)], ?_⟩
        rw [hashCode_append, hs]
        have h31 : (31 : BitVec 32) = BitVec.ofNat 32 31 := rfl
        have hdigit : (BitVec.ofNat 16 (n % 31)).setWidth 32 = BitVec.ofNat 32 (n % 31) := by
          apply BitVec.eq_of_toNat_eq
          simp only [BitVec.toNat_setWidth, BitVec.toNat_ofNat]
          omega
        rw [hdigit, h31, ← BitVec.ofNat_mul, ← BitVec.ofNat_add]
        congr 1
        omega
  obtain ⟨s, hs⟩ := key h.toNat
  exact ⟨s, by rw [hs, BitVec.ofNat_toNat, BitVec.setWidth_eq]⟩

/-- Folding the high half in twice gives the hash back. -/
theorem spread_spread (h : BitVec 32) : spread (spread h) = h := by
  ext i hi
  simp only [spread, BitVec.getElem_xor, BitVec.getElem_ushiftRight, BitVec.getLsbD_xor,
    BitVec.getLsbD_ushiftRight]
  rw [BitVec.getLsbD_of_ge h (16 + (16 + i)) (by omega)]
  cases h[i] <;> cases h.getLsbD (16 + i) <;> rfl

end JavaLib
