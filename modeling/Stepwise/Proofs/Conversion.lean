import Mathlib.Algebra.Order.Field.Power
import Mathlib.Algebra.Order.Field.Rat
import Mathlib.Tactic.Positivity
import Stepwise.Config.Value

/-! The numbers of a configuration and the integers of the language. A number is taken as the exact
rational that it is; it becomes an integer when it is one that a machine word holds, and is refused
otherwise. The bound of the numbers lets through the first integer past the words as well. -/

namespace Stepwise

namespace Binary64

/-- The rational that a number exactly is, if it is finite. -/
def amount? : Binary64 → Option ℚ
  | .finite negative m e => some ((if negative then -1 else 1) * (m * (2 : ℚ) ^ e))
  | .nan | .infinite _ => none

theorem cast_twoTo (n : Nat) : ((twoTo n : Nat) : ℚ) = 2 ^ n := by
  simp [twoTo]

theorem twoTo_pos (n : Nat) : 0 < twoTo n := Nat.pow_pos (by decide)

/-- A mantissa is shifted to the left, or to the right when no bit is lost by that. -/
def shifted? (m : Nat) (e : Int) : Option Nat :=
  if 0 ≤ e then some (m * twoTo e.toNat)
  else if m % twoTo (-e).toNat = 0 then some (m / twoTo (-e).toNat)
  else none

theorem zpow_of_nonneg {e : Int} (he : 0 ≤ e) : (2 : ℚ) ^ e = (twoTo e.toNat : Nat) := by
  rw [cast_twoTo, ← zpow_natCast, Int.toNat_of_nonneg he]

theorem zpow_of_neg {e : Int} (he : e < 0) : (2 : ℚ) ^ e = ((twoTo (-e).toNat : Nat) : ℚ)⁻¹ := by
  rw [cast_twoTo, ← zpow_natCast, Int.toNat_of_nonneg (by omega), zpow_neg, inv_inv]

theorem shifted?_eq_some_iff (m : Nat) (e : Int) (k : Nat) :
    shifted? m e = some k ↔ (m : ℚ) * 2 ^ e = k := by
  by_cases he : 0 ≤ e
  · rw [shifted?, if_pos he, zpow_of_nonneg he, Option.some_inj]
    exact_mod_cast Iff.rfl
  · have hpos := twoTo_pos (-e).toNat
    have hne : ((twoTo (-e).toNat : Nat) : ℚ) ≠ 0 := by exact_mod_cast hpos.ne'
    have hdiv : (m : ℚ) * 2 ^ e = k ↔ m = k * twoTo (-e).toNat := by
      rw [zpow_of_neg (by omega), ← div_eq_mul_inv, div_eq_iff hne]
      exact_mod_cast Iff.rfl
    rw [shifted?, if_neg he, hdiv]
    by_cases hmod : m % twoTo (-e).toNat = 0
    · rw [if_pos hmod, Option.some_inj]
      obtain ⟨j, hj⟩ := Nat.dvd_of_mod_eq_zero hmod
      rw [hj, Nat.mul_div_cancel_left j hpos, Nat.mul_comm]
      exact (Nat.mul_left_inj hpos.ne').symm
    · rw [if_neg hmod]
      refine ⟨nofun, fun h => absurd ?_ hmod⟩
      rw [h, Nat.mul_mod_left]

/-- The integer of a number is the rational that the number is. -/
theorem toInt?_eq_some_iff (x : Binary64) (n : Int) : x.toInt? = some n ↔ x.amount? = some (n : ℚ) := by
  cases x with
  | nan | infinite => exact ⟨nofun, nofun⟩
  | finite negative m e =>
    have htoInt : (Binary64.finite negative m e).toInt? =
        (shifted? m e).map fun k : Nat => if negative then -(k : Int) else (k : Int) := by
      change ((shifted? m e).bind fun k : Nat => some (k : Int)).map _ = _
      cases shifted? m e <;> rfl
    have hnonneg : (0 : ℚ) ≤ (m : ℚ) * 2 ^ e := by positivity
    rw [htoInt, amount?, Option.some_inj, Option.map_eq_some_iff]
    constructor
    · rintro ⟨k, hk, rfl⟩
      rw [(shifted?_eq_some_iff m e k).mp hk]
      cases negative <;> simp
    · intro h
      cases negative with
      | false =>
        have hn : (m : ℚ) * 2 ^ e = n := by simpa using h
        rw [hn] at hnonneg
        have hle : 0 ≤ n := by exact_mod_cast hnonneg
        refine ⟨n.toNat, (shifted?_eq_some_iff m e _).mpr ?_, Int.toNat_of_nonneg hle⟩
        rw [hn, ← Int.cast_natCast, Int.toNat_of_nonneg hle]
      | true =>
        have hn : (m : ℚ) * 2 ^ e = ((-n : Int) : ℚ) := by
          push_cast
          simpa [neg_eq_iff_eq_neg] using h
        rw [hn] at hnonneg
        have hle : 0 ≤ -n := by exact_mod_cast hnonneg
        refine ⟨(-n).toNat, (shifted?_eq_some_iff m e _).mpr ?_, ?_⟩
        · rw [hn, ← Int.cast_natCast, Int.toNat_of_nonneg hle]
        · rw [if_pos rfl, Int.toNat_of_nonneg hle, neg_neg]

end Binary64

namespace ConfigValue

/-- The exact amount of a number. -/
def amount? : ConfigValue → Option ℚ
  | .integer n => some (n : ℚ)
  | .number x => x.amount?
  | .null | .boolean _ | .text _ | .time _ | .list _ | .map _ _ | .other _ => none

def IsNumeric : ConfigValue → Prop
  | .integer _ | .number _ => True
  | .null | .boolean _ | .text _ | .time _ | .list _ | .map _ _ | .other _ => False

/-- The floating-point number that is the first integer past the machine words. -/
def IsLimit (v : ConfigValue) : Prop :=
  ∃ x, v = .number x ∧ x.amount? = some (Decimal.wordLimit : ℚ)

theorem toValue_limit {v : ConfigValue} (h : v.IsLimit) : ∃ n : Int64, v.toValue = .ok (.integer n) := by
  rcases h with ⟨x, rfl, hx⟩
  rw [← Binary64.toInt?_eq_some_iff] at hx
  have hrange : Decimal.leastWord ≤ Decimal.wordLimit ∧ Decimal.wordLimit ≤ Decimal.wordLimit := by decide
  refine ⟨Int64.ofInt Decimal.wordLimit, ?_⟩
  simp only [toValue, hx, if_pos hrange]

theorem toValue_integer (n : Int) (w : Value) : (ConfigValue.integer n).toValue = .ok w ↔
    (-2 ^ 63 ≤ n ∧ n < 2 ^ 63) ∧ w = .integer (Int64.ofInt n) := by
  have hfits : Decimal.fitsInt64 n = true ↔ -2 ^ 63 ≤ n ∧ n < 2 ^ 63 := by
    rw [Decimal.fitsInt64, Bool.and_eq_true, decide_eq_true_eq, decide_eq_true_eq]
    exact Iff.rfl
  rw [← hfits]
  by_cases h : Decimal.fitsInt64 n
  · simp [toValue, h, eq_comm]
  · simp [toValue, h]

theorem toValue_number {x : Binary64} {n : Int} (h : x.toInt? = some n) (w : Value) :
    (ConfigValue.number x).toValue = .ok w ↔
      (-2 ^ 63 ≤ n ∧ n ≤ 2 ^ 63) ∧ w = .integer (Int64.ofInt n) := by
  have hbound : Decimal.leastWord ≤ n ∧ n ≤ Decimal.wordLimit ↔ -2 ^ 63 ≤ n ∧ n ≤ 2 ^ 63 := Iff.rfl
  rw [← hbound]
  by_cases hrange : Decimal.leastWord ≤ n ∧ n ≤ Decimal.wordLimit
  · simp [toValue, h, hrange, eq_comm]
  · simp [toValue, h, hrange]

/-- A number is accepted for the integer that it is. -/
theorem toValue_eq_ok_iff {v : ConfigValue} (hv : v.IsNumeric) (hlimit : ¬ v.IsLimit) (w : Value) :
    v.toValue = .ok w ↔
      ∃ n : Int, v.amount? = some (n : ℚ) ∧ (-2 ^ 63 ≤ n ∧ n < 2 ^ 63) ∧ w = .integer (Int64.ofInt n) := by
  cases v with
  | null | boolean | text | time | list | map | other => exact hv.elim
  | integer n =>
    rw [toValue_integer]
    constructor
    · exact fun h => ⟨n, rfl, h⟩
    · rintro ⟨k, hk, h⟩
      obtain rfl : n = k := by exact_mod_cast Option.some_inj.mp hk
      exact h
  | number x =>
    simp only [amount?, ← Binary64.toInt?_eq_some_iff]
    cases hint : x.toInt? with
    | none => simp [toValue, hint]
    | some n =>
      have hne : n ≠ 2 ^ 63 := by
        rintro rfl
        exact hlimit ⟨x, rfl, (Binary64.toInt?_eq_some_iff x _).mp hint⟩
      rw [toValue_number hint]
      constructor
      · rintro ⟨hrange, rfl⟩
        exact ⟨n, rfl, by omega, rfl⟩
      · rintro ⟨k, hk, hrange, rfl⟩
        cases hk
        exact ⟨by omega, rfl⟩

end ConfigValue

/-- A number of a configuration is accepted if and only if it is an integer that a machine word holds,
and the value is that integer. Only the floating-point number 2^63 is accepted without being one. -/
theorem numbers_convert_exactly_but_for_the_limit (v : ConfigValue) (hv : v.IsNumeric) :
    (¬ v.IsLimit →
      ((∃ w, v.toValue = .ok w) ↔
        ∃ n : Int, v.amount? = some (n : ℚ) ∧ -2 ^ 63 ≤ n ∧ n ≤ 2 ^ 63 - 1) ∧
      ∀ w, v.toValue = .ok w → ∃ n : Int64, w = .integer n ∧ v.amount? = some (n.toInt : ℚ)) ∧
    (v.IsLimit → ∃ n : Int64, v.toValue = .ok (.integer n)) := by
  refine ⟨fun hlimit => ⟨?_, fun w hw => ?_⟩, ConfigValue.toValue_limit⟩
  · simp only [ConfigValue.toValue_eq_ok_iff hv hlimit]
    constructor
    · rintro ⟨w, n, hn, hrange, rfl⟩
      exact ⟨n, hn, hrange.1, by omega⟩
    · rintro ⟨n, hn, hlo, hhi⟩
      exact ⟨_, n, hn, ⟨hlo, by omega⟩, rfl⟩
  · obtain ⟨n, hn, ⟨hlo, hhi⟩, rfl⟩ := (ConfigValue.toValue_eq_ok_iff hv hlimit w).mp hw
    refine ⟨Int64.ofInt n, rfl, ?_⟩
    rw [hn, Int64.toInt_ofInt_of_le hlo hhi]

/-- The last floating-point number below 2^63, as an instance with a positive exponent. -/
theorem numbers_convert_exactly_but_for_the_limit_below :
    let v : ConfigValue := .number (.finite false 9007199254740991 10)
    v.IsNumeric ∧ ¬ v.IsLimit ∧ v.toValue = .ok (.integer 9223372036854774784) ∧
      ∃ n : Int64, Value.integer 9223372036854774784 = .integer n ∧ v.amount? = some (n.toInt : ℚ) := by
  intro v
  have hlimit : ¬ v.IsLimit := by
    rintro ⟨x, hx, hamount⟩
    obtain rfl := ConfigValue.number.inj hx
    rw [← Binary64.toInt?_eq_some_iff] at hamount
    exact absurd hamount (by decide)
  have hvalue : v.toValue = .ok (.integer 9223372036854774784) := rfl
  exact ⟨trivial, hlimit, hvalue,
    ((numbers_convert_exactly_but_for_the_limit v trivial).1 hlimit).2 _ hvalue⟩

/-- The floating-point number 2^63 is an integer that no machine word holds, and it is accepted. -/
theorem number_past_the_words_is_accepted :
    let v : ConfigValue := .number (.finite false 4503599627370496 11)
    v.amount? = some (2 ^ 63) ∧ (∃ n : Int64, v.toValue = .ok (.integer n)) ∧
      ¬ ∃ n : Int, v.amount? = some (n : ℚ) ∧ -2 ^ 63 ≤ n ∧ n ≤ 2 ^ 63 - 1 := by
  intro v
  have hamount : v.amount? = some ((2 ^ 63 : Int) : ℚ) :=
    (Binary64.toInt?_eq_some_iff (.finite false 4503599627370496 11) _).mp (by decide)
  refine ⟨by rw [hamount]; norm_num, ⟨_, rfl⟩, ?_⟩
  rintro ⟨n, hn, -, hhi⟩
  rw [hamount, Option.some_inj] at hn
  have hn : (2 ^ 63 : Int) = n := by exact_mod_cast hn
  omega

end Stepwise
