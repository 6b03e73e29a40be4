import Flowgraph.Code.Arithmetic
import Mathlib.Algebra.Order.Ring.Int

/-!
# Words as integers

The value of an operator is the exact result on the integers that the words stand for, brought into
the range of words by a multiple of `2 ^ 64` (`Word.Reduces`). A shift multiplies by a power of two
or divides by it, rounding down. Only a division by zero has no value
(`BinaryOp.apply_eq_none_iff`).
-/

namespace Flowgraph

/-- A word is the integer in the range of words that differs from an exact result by a multiple of
`2 ^ 64`. -/
structure Word.Reduces (word : Word) (exact : Int) : Prop where
  least : -2 ^ 63 ≤ word.toInt
  greatest : word.toInt < 2 ^ 63
  congruent : (2 ^ 64 : Int) ∣ exact - word.toInt

namespace Word

/-- The balanced residue is a reduction. -/
theorem Reduces.of_bmod {word : Word} {exact : Int} (h : word.toInt = exact.bmod (2 ^ 64)) :
    word.Reduces exact :=
  ⟨word.le_toInt, word.toInt_lt, h ▸ Int.dvd_self_sub_bmod⟩

/-- Quotient and remainder give the dividend back, also after a wrap. -/
theorem div_mul_add_mod (l r : Word) : l / r * r + l % r = l := by
  apply Int64.toInt.inj
  rw [Int64.toInt_add, Int64.toInt_mul, Int64.toInt_div, Int64.toInt_mod, Int.bmod_mul_bmod,
    Int.bmod_add_bmod, Int.tdiv_mul_add_tmod, Int64.toInt_bmod]

/-- Remainders are smaller than the divisor. -/
theorem natAbs_mod_lt (l : Word) {r : Word} (h : r ≠ 0) :
    (l % r).toInt.natAbs < r.toInt.natAbs := by
  have hr : r.toInt ≠ 0 := fun hzero => h (Int64.toInt.inj hzero)
  rw [Int64.toInt_mod, Int.natAbs_tmod]
  exact Nat.mod_lt _ (Int.natAbs_pos.mpr hr)

/-- Remainders have the sign of the dividend. -/
theorem mod_eq_zero_or_sign (l r : Word) : l % r = 0 ∨ (l % r).toInt.sign = l.toInt.sign := by
  have hsign := Int.sign_tmod l.toInt r.toInt
  rw [← Int64.toInt_mod] at hsign
  split at hsign
  · exact .inl (Int64.toInt.inj (Int.sign_eq_zero_iff_zero.mp hsign))
  · exact .inr hsign

/-- A shift takes its amount modulo 64, also from a negative word. -/
theorem toNat_amount (r : Word) : (r.toBitVec.smod 64).toNat = (r.toInt % 64).toNat := by
  have hamount : (r.toBitVec.smod 64).toInt = r.toInt % 64 := by
    rw [BitVec.toInt_smod]
    exact Int.fmod_eq_emod_of_nonneg _ (by decide)
  have hcases := BitVec.toInt_eq_toNat_cond (r.toBitVec.smod 64)
  omega

/-- Left shifts multiply, and wrap. -/
theorem toInt_shiftLeft (l r : Word) :
    (l <<< r).toInt = (l.toInt * 2 ^ (r.toInt % 64).toNat).bmod (2 ^ 64) := by
  rw [← Int64.toInt_toBitVec, Int64.toBitVec_shiftLeft, BitVec.shiftLeft_eq', toNat_amount,
    BitVec.toInt_shiftLeft, Nat.shiftLeft_eq, ← Int64.toInt_toBitVec l,
    l.toBitVec.toInt_eq_toNat_bmod,
    Int.bmod_mul_bmod]
  push_cast
  rfl

/-- Right shifts divide, rounding down. -/
theorem toInt_shiftRight (l r : Word) :
    (l >>> r).toInt = l.toInt.fdiv (2 ^ (r.toInt % 64).toNat) := by
  rw [← Int64.toInt_toBitVec, Int64.toBitVec_shiftRight, BitVec.sshiftRight_eq', toNat_amount,
    BitVec.toInt_sshiftRight, Int.shiftRight_eq_div_pow, Int64.toInt_toBitVec,
    Int.fdiv_eq_ediv_of_nonneg _ (Int.pow_nonneg (by decide))]
  push_cast
  rfl

/-- The last six bits of a word are its remainder modulo 64. -/
theorem toInt_mask (r : Word) : (r &&& 63).toInt = r.toInt % 64 := by
  have hmask : (r &&& 63).toBitVec.toNat = r.toBitVec.toNat % 64 := by
    rw [Int64.toBitVec_and, BitVec.toNat_and]
    exact Nat.and_two_pow_sub_one_eq_mod _ 6
  have hr := BitVec.toInt_eq_toNat_cond r.toBitVec
  have hmasked := BitVec.toInt_eq_toNat_cond (r &&& 63).toBitVec
  rw [Int64.toInt_toBitVec] at hr hmasked
  omega

/-- Left shifts read six bits of the amount. -/
theorem shiftLeft_mask (l r : Word) : l <<< (r &&& 63) = l <<< r := by
  apply Int64.toInt.inj
  rw [toInt_shiftLeft, toInt_shiftLeft, toInt_mask, Int.emod_emod]

/-- Right shifts read six bits of the amount. -/
theorem shiftRight_mask (l r : Word) : l >>> (r &&& 63) = l >>> r := by
  apply Int64.toInt.inj
  rw [toInt_shiftRight, toInt_shiftRight, toInt_mask, Int.emod_emod]

end Word

namespace BinaryOp

/-- Only a divisor of zero leaves a checked operation without a value. -/
theorem checked_or {operation : Word → Word → Word} {otherwise : Word} (l r : Word)
    (h : l = Int64.minValue → otherwise = operation l (-1)) :
    (checked operation l r).or (if r = -1 then some otherwise else none) =
      if r = 0 then none else some (operation l r) := by
  by_cases hzero : r = 0
  · subst hzero
    simp [checked]
  · by_cases hleast : l = Int64.minValue ∧ r = -1
    · obtain ⟨hl, rfl⟩ := hleast
      simp [checked, hl, h hl]
    · simp [checked, hzero, hleast]

/-- Division fails for zero only. -/
theorem apply_div (l r : Word) : apply .div l r = if r = 0 then none else some (l / r) :=
  checked_or l r fun hl => by subst hl; decide

/-- Remainders fail for zero only. -/
theorem apply_mod (l r : Word) : apply .mod l r = if r = 0 then none else some (l % r) :=
  checked_or l r fun hl => by subst hl; decide

/-- Left shifts never fail. -/
theorem apply_shl (l r : Word) : apply .shl l r = some (l <<< r) :=
  congrArg some (Word.shiftLeft_mask l r)

/-- Right shifts never fail. -/
theorem apply_shr (l r : Word) : apply .shr l r = some (l >>> r) :=
  congrArg some (Word.shiftRight_mask l r)

/-- Only division by zero has no value. -/
theorem apply_eq_none_iff {op : BinaryOp} {l r : Word} :
    op.apply l r = none ↔ (op = .div ∨ op = .mod) ∧ r = 0 := by
  cases op with
  | div => simp [apply_div]
  | mod => simp [apply_mod]
  | _ => simp [apply]

/-- Only a division by zero has no value. Sums, differences, products and quotients are the exact
ones, reduced; quotient and remainder belong together, and the remainder is smaller than the divisor
and has the sign of the dividend unless it is zero. Shifts multiply and divide by a power of two. -/
theorem apply_arithmetic (l r : Word) :
    (∀ op, apply op l r = none ↔ (op = .div ∨ op = .mod) ∧ r = 0) ∧
      (∃ sum ∈ apply .add l r, sum.Reduces (l.toInt + r.toInt)) ∧
      (∃ difference ∈ apply .sub l r, difference.Reduces (l.toInt - r.toInt)) ∧
      (∃ product ∈ apply .mul l r, product.Reduces (l.toInt * r.toInt)) ∧
      (r ≠ 0 → ∃ quotient ∈ apply .div l r, ∃ remainder ∈ apply .mod l r,
        quotient.Reduces (l.toInt.tdiv r.toInt) ∧
          (∃ product ∈ apply .mul quotient r, apply .add product remainder = some l) ∧
          remainder.toInt.natAbs < r.toInt.natAbs ∧
          (remainder = 0 ∨ remainder.toInt.sign = l.toInt.sign)) ∧
      (∃ shifted ∈ apply .shl l r, shifted.Reduces (l.toInt * 2 ^ (r.toInt % 64).toNat)) ∧
      ∃ shifted ∈ apply .shr l r, shifted.toInt = l.toInt.fdiv (2 ^ (r.toInt % 64).toNat) := by
  refine ⟨fun op => apply_eq_none_iff, ⟨_, rfl, .of_bmod (Int64.toInt_add l r)⟩,
    ⟨_, rfl, .of_bmod (Int64.toInt_sub l r)⟩, ⟨_, rfl, .of_bmod (Int64.toInt_mul l r)⟩,
    fun hr => ?_,
    ⟨_, apply_shl l r, .of_bmod (Word.toInt_shiftLeft l r)⟩, _, apply_shr l r,
    Word.toInt_shiftRight l r⟩
  have hquotient : apply .div l r = some (l / r) := by simp [apply_div, hr]
  have hremainder : apply .mod l r = some (l % r) := by simp [apply_mod, hr]
  refine ⟨_, hquotient, _, hremainder, .of_bmod (Int64.toInt_div l r), ⟨_, rfl, ?_⟩,
    Word.natAbs_mod_lt l hr, Word.mod_eq_zero_or_sign l r⟩
  exact congrArg some (Word.div_mul_add_mod l r)

/-- The least word divided by `-1` wraps around to itself and leaves no remainder. -/
theorem apply_arithmetic_least :
    let least : Word := -9223372036854775808
    least.toInt = -2 ^ 63 ∧ apply .div least (-1) = some least ∧ apply .mod least (-1) = some 0 ∧
      least.Reduces (least.toInt.tdiv (-1)) ∧
      ∃ product ∈ apply .mul least (-1), apply .add product 0 = some least := by
  intro least
  obtain ⟨-, -, -, -, hdiv, -⟩ := apply_arithmetic least (-1)
  obtain ⟨quotient, hquotient, remainder, hremainder, hreduces, hback, -⟩ := hdiv (by decide)
  obtain rfl : quotient = least := Option.some.inj (hquotient.symm.trans (by decide))
  obtain rfl : remainder = 0 := Option.some.inj (hremainder.symm.trans (by decide))
  exact ⟨by decide, hquotient, hremainder, hreduces, hback⟩

end BinaryOp

end Flowgraph
