import Mathlib.Data.Int.Bitwise

/-!
# Integers in two's complement

A machine word stands for the integer whose bits are those of the word, followed by its sign
bit.  The bitwise operators of words are those of the integers, and a shifted word is the shifted
integer if that fits.
-/

namespace Rigor.Library.TwosComplement

/-- An integer is its bits. -/
theorem eq_of_testBit {m n : Int} (same : ∀ k, Int.testBit m k = Int.testBit n k) : m = n := by
  -- Far enough to the left the bits of a natural number are unset, those of a negative one set.
  have differ : ∀ a b : Nat, ¬∀ k, a.testBit k = !b.testBit k := by
    intro a b all
    have far := all (a + b)
    have aSmall : a < 2 ^ (a + b) := Nat.lt_of_le_of_lt (Nat.le_add_right a b) Nat.lt_two_pow_self
    have bSmall : b < 2 ^ (a + b) := Nat.lt_of_le_of_lt (Nat.le_add_left b a) Nat.lt_two_pow_self
    rw [Nat.testBit_lt_two_pow aSmall, Nat.testBit_lt_two_pow bSmall] at far
    nomatch far
  cases m with
  | ofNat a =>
      cases n with
      | ofNat b => exact congrArg Int.ofNat (Nat.eq_of_testBit_eq same)
      | negSucc b => exact absurd same (differ a b)
  | negSucc a =>
      cases n with
      | ofNat b => exact absurd (fun k => (same k).symm) (differ b a)
      | negSucc b =>
          have bits : ∀ k, a.testBit k = b.testBit k := fun k => Bool.not_inj (same k)
          exact congrArg Int.negSucc (Nat.eq_of_testBit_eq bits)

section Words

variable {w : Nat} (x y : BitVec w)

theorem testBit_toInt (k : Nat) :
    Int.testBit x.toInt k = if k < w then x.getLsbD k else x.msb := by
  rw [BitVec.toInt_eq_msb_cond]
  cases sign : x.msb with
  | false =>
      rw [if_neg Bool.false_ne_true]
      change x.toNat.testBit k = _
      rw [BitVec.testBit_toNat]
      split
      · rfl
      · exact x.getLsbD_of_ge k (Nat.le_of_not_lt ‹_›)
  | true =>
      rw [if_pos rfl]
      have spelled : (x.toNat : Int) - (2 ^ w : Nat) = Int.negSucc (~~~x).toNat := by
        have below := x.isLt
        rw [BitVec.toNat_not, Int.negSucc_eq]
        omega
      rw [spelled]
      change (!(~~~x).toNat.testBit k) = _
      rw [BitVec.testBit_toNat, BitVec.getLsbD_not]
      split <;> simp_all

theorem toInt_and : (x &&& y).toInt = Int.land x.toInt y.toInt := by
  apply eq_of_testBit
  intro k
  rw [Int.testBit_land, testBit_toInt, testBit_toInt, testBit_toInt]
  split <;> simp

theorem toInt_or : (x ||| y).toInt = Int.lor x.toInt y.toInt := by
  apply eq_of_testBit
  intro k
  rw [Int.testBit_lor, testBit_toInt, testBit_toInt, testBit_toInt]
  split <;> simp

theorem toInt_xor : (x ^^^ y).toInt = Int.xor x.toInt y.toInt := by
  apply eq_of_testBit
  intro k
  rw [Int.testBit_lxor, testBit_toInt, testBit_toInt, testBit_toInt]
  split <;> simp

/-- A word shifted to the left is the product with a power of two, wrapped. -/
theorem toInt_shiftLeft (n : Nat) :
    (x <<< n).toInt = (x.toInt * 2 ^ n).bmod (2 ^ w) := by
  have wrapped : (x.toNat : Int).bmod (2 ^ w) = x.toInt := (BitVec.toInt_eq_toNat_bmod x).symm
  rw [BitVec.toInt_shiftLeft, ← wrapped, Int.bmod_mul_bmod, Nat.shiftLeft_eq]
  norm_cast

end Words

end Rigor.Library.TwosComplement
