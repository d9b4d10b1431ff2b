import Mathlib.Algebra.Order.Group.Int
import Mathlib.Data.Int.ModEq
import Stepwise.Proofs.Execution

/-! Division and the other arithmetic. A quotient is the exact one cut off towards zero, but for the one
that no machine word holds, which wraps around. What multiplication and subtraction then leave of the
dividend is the remainder of the integers themselves: on the way they may wrap around, in the end not. -/

namespace Stepwise

section Words

theorem toInt_div_modEq (x y : Int64) : (x / y).toInt ≡ x.toInt.tdiv y.toInt [ZMOD 2 ^ 64] := by
  rw [Int64.toInt_div]
  exact Int.bmod_emod

theorem toInt_div_eq {x y : Int64} (h : ¬ (x = Int64.minValue ∧ y = -1)) :
    (x / y).toInt = x.toInt.tdiv y.toInt := by
  by_cases hx : x = Int64.minValue
  · exact Int64.toInt_div_of_ne_right x y fun hy => h ⟨hx, hy⟩
  · exact Int64.toInt_div_of_ne_left x y hx

/-- The remainder is exact, also where the quotient or its product with the divisor is not. -/
theorem toInt_sub_div_mul (x y : Int64) : (x - x / y * y).toInt = x.toInt.tmod y.toInt := by
  have hexact : x.toInt - x.toInt.tdiv y.toInt * y.toInt = x.toInt.tmod y.toInt := by
    rw [Int.tmod_def, Int.mul_comm]
  calc (x - x / y * y).toInt
      = (x.toInt - ((x.toInt.tdiv y.toInt).bmod (2 ^ 64) * y.toInt).bmod (2 ^ 64)).bmod (2 ^ 64) := by
        rw [Int64.toInt_sub, Int64.toInt_mul, Int64.toInt_div]
    _ = (x.toInt.tmod y.toInt).bmod (2 ^ 64) := by
        rw [Int.bmod_mul_bmod, Int.sub_bmod_bmod, hexact]
    -- a machine word holds the remainder, so nothing is lost
    _ = x.toInt.tmod y.toInt := by
        rw [← Int64.toInt_mod]
        exact Int64.toInt_bmod (x % y)

theorem abs_tmod_lt_abs (a : Int) {b : Int} (hb : b ≠ 0) : |a.tmod b| < |b| := by
  rw [Int.abs_eq_natAbs, Int.abs_eq_natAbs, Int.natAbs_tmod]
  exact_mod_cast Nat.mod_lt _ (Int.natAbs_pos.mpr hb)

theorem tmod_eq_zero_or_sign_eq (a b : Int) : a.tmod b = 0 ∨ (a.tmod b).sign = a.sign := by
  by_cases h : b ∣ a
  · exact .inl (Int.tmod_eq_zero_of_dvd h)
  · exact .inr (by rw [Int.sign_tmod, if_neg h])

end Words

namespace Primitive

variable (writer : Writer) (s : Store) (scope : ScopeId) (written : Array Bytes)

/-- What a primitive answers to a call with two integers. -/
def reply (p : Primitive) (x y : Int64) : Reply :=
  primitivesOn writer p.native s scope [.integer x, .integer y] written

variable {writer s scope written}

theorem reply_eq {p : Primitive} (h : p.arity = 2) (x y : Int64) : p.reply writer s scope written x y =
    match p.arithmetic x y with
    | .ok n => .value (.integer n)
    | .error c => .cause c := by
  simp only [reply, primitivesOn, ofNative?_eq_some_iff.mpr rfl]
  cases p with
  | add | subtract | multiply => rfl
  | divide =>
    by_cases hy : y = 0 <;> simp [call, binary, arithmetic, hy, Except.map]
  | not | print => cases h

theorem reply_divide (x : Int64) {y : Int64} (hy : y ≠ 0) :
    divide.reply writer s scope written x y = .value (.integer (x / y)) := by
  rw [reply_eq rfl, arithmetic, if_neg hy]

theorem reply_divide_eq_error {x y : Int64} {f : Failure} :
    (divide.reply writer s scope written x y).result = .error f ↔
      y = 0 ∧ f = .diagnostic ⟨.divisionByZero, .nowhere⟩ := by
  by_cases hy : y = 0
  · rw [hy, reply_eq rfl]
    simp [arithmetic, Reply.cause, Reply.failure, eq_comm]
  · rw [reply_divide x hy]
    simp [Reply.value, hy]

end Primitive

open Primitive

/-- Division fails if and only if the divisor is zero, and the error is one of arithmetic. Any other
quotient is the exact one cut off towards zero modulo 2^64, and is just that one unless -2^63 is divided
by -1. What is left of the dividend when the product of quotient and divisor is subtracted is smaller than
the divisor and has the sign of the dividend if it is not zero. Subtraction undoes addition. -/
theorem division_leaves_the_remainder (writer : Writer) (s : Store) (scope : ScopeId)
    (written : Array Bytes) (x y : Int64) :
    ((∃ f, (divide.reply writer s scope written x y).result = .error f) ↔ y = 0) ∧
    (∀ f, (divide.reply writer s scope written x y).result = .error f → f.kind? = some .arithmetic) ∧
    (y ≠ 0 → ∃ q product r : Int64,
      divide.reply writer s scope written x y = .value (.integer q) ∧
      multiply.reply writer s scope written q y = .value (.integer product) ∧
      subtract.reply writer s scope written x product = .value (.integer r) ∧
      |r.toInt| < |y.toInt| ∧ (r.toInt = 0 ∨ r.toInt.sign = x.toInt.sign) ∧
      q.toInt ≡ x.toInt.tdiv y.toInt [ZMOD 2 ^ 64] ∧
      if x = Int64.minValue ∧ y = -1 then q = Int64.minValue ∧ r = 0
      else q.toInt = x.toInt.tdiv y.toInt) ∧
    ∃ sum, add.reply writer s scope written x y = .value (.integer sum) ∧
      subtract.reply writer s scope written sum y = .value (.integer x) := by
  refine ⟨?_, fun f hf => ?_, fun hy => ?_, ?_⟩
  · simp [reply_divide_eq_error]
  · obtain ⟨-, rfl⟩ := reply_divide_eq_error.mp hf
    rfl
  · have hy' : y.toInt ≠ 0 := by
      rw [← Int64.toInt_zero]
      exact fun h => hy (Int64.toInt_inj.mp h)
    refine ⟨x / y, x / y * y, x - x / y * y, reply_divide x hy, reply_eq rfl _ y,
      reply_eq rfl x _, ?_, ?_, toInt_div_modEq x y, ?_⟩
    · rw [toInt_sub_div_mul]
      exact abs_tmod_lt_abs x.toInt hy'
    · rw [toInt_sub_div_mul]
      exact tmod_eq_zero_or_sign_eq x.toInt y.toInt
    · split_ifs with h
      · obtain ⟨rfl, rfl⟩ := h
        exact ⟨rfl, rfl⟩
      · exact toInt_div_eq h
  · refine ⟨x + y, reply_eq rfl x y, ?_⟩
    rw [reply_eq rfl, arithmetic, Int64.add_sub_cancel]

/-- The quotient that wraps around, a negative dividend that is no multiple of the divisor, and the
divisor zero. -/
theorem division_leaves_the_remainder_of_least :
    (∃ product : Int64,
      divide.reply .unfailing .empty 0 #[] Int64.minValue (-1) = .value (.integer Int64.minValue) ∧
      multiply.reply .unfailing .empty 0 #[] Int64.minValue (-1) = .value (.integer product) ∧
      subtract.reply .unfailing .empty 0 #[] Int64.minValue product = .value (.integer 0)) ∧
    (∃ product r : Int64, divide.reply .unfailing .empty 0 #[] (-7) 2 = .value (.integer (-3)) ∧
      multiply.reply .unfailing .empty 0 #[] (-3) 2 = .value (.integer product) ∧
      subtract.reply .unfailing .empty 0 #[] (-7) product = .value (.integer r) ∧
      |r.toInt| < 2 ∧ (r.toInt = 0 ∨ r.toInt.sign = -1)) ∧
    ∃ f, (divide.reply .unfailing .empty 0 #[] 7 0).result = .error f ∧ f.kind? = some .arithmetic := by
  refine ⟨?_, ?_, ?_⟩
  · obtain ⟨q, product, r, hquotient, hproduct, hrest, -, -, -, h⟩ :=
      (division_leaves_the_remainder .unfailing .empty 0 #[] Int64.minValue (-1)).2.2.1 (by decide)
    rw [if_pos ⟨rfl, rfl⟩] at h
    obtain ⟨rfl, rfl⟩ := h
    exact ⟨product, hquotient, hproduct, hrest⟩
  · obtain ⟨q, product, r, hquotient, hproduct, hrest, hlt, hsign, -, h⟩ :=
      (division_leaves_the_remainder .unfailing .empty 0 #[] (-7) 2).2.2.1 (by decide)
    rw [if_neg (by decide)] at h
    obtain rfl : q = -3 := Int64.toInt_inj.mp h
    exact ⟨product, r, hquotient, hproduct, hrest, hlt, hsign⟩
  · obtain ⟨hzero, hkind, -⟩ := division_leaves_the_remainder .unfailing .empty 0 #[] 7 0
    obtain ⟨f, hf⟩ := hzero.mpr rfl
    exact ⟨f, hf, hkind f hf⟩

end Stepwise
