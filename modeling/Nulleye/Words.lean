import Mathlib.Algebra.Ring.Int.Defs
import Mathlib.Algebra.Ring.Nat

/-!
Fixed-width counters that have not wrapped: what adding one, taking one away and
the distance of two counters mean for the numbers they hold. Signed numbers, whose
overflow is undefined, are counted with a check.
-/
namespace Nulleye.Words

variable {w : Nat}

theorem toNat_one (wide : 1 < 2 ^ w) : (1 : BitVec w).toNat = 1 :=
  (BitVec.toNat_ofNat 1 w).trans (Nat.mod_eq_of_lt wide)

theorem toNat_succ {x : BitVec w} (fits : x.toNat + 1 < 2 ^ w) : (x + 1).toNat = x.toNat + 1 := by
  have one : (1 : BitVec w).toNat = 1 := toNat_one (by omega)
  rw [BitVec.toNat_add_of_lt (by omega),one]

/-- Away from the largest value a counter counts up. -/
theorem toNat_succ_of_ne {x : BitVec w} (below : x ≠ BitVec.allOnes w) : (x + 1).toNat = x.toNat + 1 := by
  apply toNat_succ
  have bounded := x.isLt
  have different : x.toNat ≠ 2 ^ w - 1 := fun same => below (BitVec.eq_of_toNat_eq (by simpa using same))
  omega

/-- Away from zero a counter counts down. -/
theorem toNat_pred {x : BitVec w} (positive : 0 < x.toNat) : (x - 1).toNat = x.toNat - 1 := by
  have bounded := x.isLt
  have one : (1 : BitVec w).toNat = 1 := toNat_one (by omega)
  have ordered : 1 ≤ x := by rw [BitVec.le_def]; omega
  rw [BitVec.toNat_sub_of_le ordered,one]

/-! ### Signed numbers -/

/-- The result of an operation on `int`s; an overflow is undefined. -/
def int (n : Int) : Option Int32 := if -2 ^ 31 ≤ n ∧ n < 2 ^ 31 then some (Int32.ofInt n) else none

theorem int_eq {n : Int} (low : -2 ^ 31 ≤ n) (high : n < 2 ^ 31) : int n = some (Int32.ofInt n) ∧ (Int32.ofInt n).toInt = n :=
  ⟨if_pos ⟨low,high⟩,Int32.toInt_ofInt_of_le low high⟩

theorem int_eq_none {n : Int} (high : 2 ^ 31 ≤ n) : int n = none := if_neg (by omega)

end Nulleye.Words
