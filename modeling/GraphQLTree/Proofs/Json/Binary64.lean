import GraphQLTree.Json.Binary64
import Mathlib.Algebra.Order.Field.Power
import Mathlib.Algebra.Order.Field.Rat
import Mathlib.Tactic.Linarith
import Mathlib.Tactic.NormNum
import Mathlib.Tactic.Positivity
import Mathlib.Tactic.Ring

/-!
# Numbers out of range

A decimal text denotes a rational number. It is out of the binary64 range if its magnitude is not below
`Binary64.bound`, which is halfway between the greatest finite number, `(2 ^ 53 - 1) * 2 ^ 971`, and the
next power of two: a tie would go to the even fraction, which is that of the power. Just these texts are
read as infinite (`Binary64.read?_eq_infinite_iff`).

The scale of a quotient is what carries the proof. A quotient in `[2 ^ (e + 52), 2 ^ (e + 53))` is scaled
by `2 ^ e` (`Binary64.scale_spec`), so it is out of range only if `e` is greater than 971, or if `e` is 971
and its 53 bits are rounded up to `2 ^ 53` (`Binary64.le_roundQuotient_iff`).
-/

namespace GraphQLTree.Binary64

/-- The least magnitude that is out of range. -/
def bound : ℚ := (2 ^ 54 - 1) * 2 ^ 970

/-- The magnitude that decimal text denotes. -/
def Decimal.magnitude (decimal : Decimal) : ℚ :=
  decimal.digits * (10 : ℚ) ^ decimal.exponent

/-! ### Rounding -/

/-- A quotient is rounded to an even number or a greater one if and only if it isn't more than one half
less than that number. -/
theorem le_roundQuotient_iff {num den m : Nat} (hden : 0 < den) (hm : m % 2 = 0) (hpos : 0 < m) :
    m ≤ roundQuotient num den ↔ (2 * m - 1) * den ≤ 2 * num := by
  have hsplit : 2 * num = 2 * (num / den) * den + 2 * (num % den) := by
    rw [mul_assoc, ← mul_add, mul_comm _ den, Nat.div_add_mod]
  have hmod := Nat.mod_lt num hden
  rw [hsplit, roundQuotient]
  generalize num / den = q at *
  generalize num % den = r at *
  rcases Nat.lt_trichotomy (q + 1) m with hlt | rfl | hle
  · -- Rounding up isn't enough.
    have hmul : (2 * q + 2 + 1) * den ≤ (2 * m - 1) * den := Nat.mul_le_mul_right den (by omega)
    have hfalse : ¬(2 * m - 1) * den ≤ 2 * q * den + 2 * r := by
      rw [add_mul, add_mul, one_mul] at hmul
      omega
    refine iff_of_false ?_ hfalse
    split_ifs <;> omega
  · -- The quotient is odd, so that a tie is rounded up.
    have hmul : (2 * (q + 1) - 1) * den = 2 * q * den + den := by
      rw [show 2 * (q + 1) - 1 = 2 * q + 1 by omega, add_mul, one_mul]
    rw [hmul, Nat.add_le_add_iff_left]
    split_ifs <;> omega
  · have hmul : (2 * m - 1) * den ≤ 2 * q * den := Nat.mul_le_mul_right den (by omega)
    refine iff_of_true ?_ (Nat.le_add_right_of_le hmul)
    split_ifs <;> omega

/-- A quotient below a number is rounded to that number at most. -/
theorem roundQuotient_le {num den m : Nat} (hden : 0 < den) (h : num < m * den) :
    roundQuotient num den ≤ m := by
  have hlt : num / den < m := (Nat.div_lt_iff_lt_mul hden).2 h
  rw [roundQuotient]
  split_ifs <;> omega

/-! ### Scales -/

/-- The parts of a quotient, one of which is shifted, are those of the quotient scaled by a power of
two. -/
theorem shift_div_shift (num den : Nat) (k : Int) :
    ((num <<< (-k).toNat : Nat) : ℚ) / (den <<< k.toNat : Nat) = num / den / 2 ^ k := by
  rw [Nat.shiftLeft_eq, Nat.shiftLeft_eq, Nat.cast_mul, Nat.cast_mul, Nat.cast_pow, Nat.cast_pow]
  rcases Int.le_total 0 k with hk | hk
  · obtain ⟨n, rfl⟩ := Int.eq_ofNat_of_zero_le hk
    simp [div_div]
  · obtain ⟨n, hn⟩ := Int.eq_ofNat_of_zero_le (Int.neg_nonneg_of_nonpos hk)
    obtain rfl : k = -(n : Int) := by omega
    simpa [div_eq_mul_inv] using mul_right_comm (num : ℚ) (2 ^ n) (den : ℚ)⁻¹

theorem shift_pos {n : Nat} (hn : 0 < n) (k : Nat) : 0 < n <<< k := by
  rw [Nat.shiftLeft_eq]
  positivity

/-- The binary logarithms of its parts tell the size of a quotient up to a factor of two. -/
theorem zpow_log2_lt {num den : Nat} (hnum : 0 < num) (hden : 0 < den) :
    (2 : ℚ) ^ ((num.log2 : Int) - den.log2 - 1) < num / den ∧
      (num : ℚ) / den < 2 ^ ((num.log2 : Int) - den.log2 + 1) := by
  have hsize {n : Nat} (hn : 0 < n) :
      (2 : ℚ) ^ (n.log2 : Int) ≤ n ∧ (n : ℚ) < 2 ^ ((n.log2 : Int) + 1) := by
    constructor
    · exact_mod_cast Nat.log2_self_le hn.ne'
    · exact_mod_cast Nat.lt_log2_self (n := n)
  have hpos : (0 : ℚ) < den := by exact_mod_cast hden
  obtain ⟨hnum, hnum'⟩ := hsize hnum
  obtain ⟨hden, hden'⟩ := hsize hden
  constructor
  · rw [lt_div_iff₀ hpos]
    calc (2 : ℚ) ^ ((num.log2 : Int) - den.log2 - 1) * den
        < 2 ^ ((num.log2 : Int) - den.log2 - 1) * 2 ^ ((den.log2 : Int) + 1) :=
          mul_lt_mul_of_pos_left hden' (by positivity)
      _ = 2 ^ (num.log2 : Int) := by
          rw [← zpow_add₀ (by norm_num)]
          congr 1
          omega
      _ ≤ num := hnum
  · rw [div_lt_iff₀ hpos]
    calc (num : ℚ) < 2 ^ ((num.log2 : Int) + 1) := hnum'
      _ = 2 ^ ((num.log2 : Int) - den.log2 + 1) * 2 ^ (den.log2 : Int) := by
          rw [← zpow_add₀ (by norm_num)]
          congr 1
          omega
      _ ≤ 2 ^ ((num.log2 : Int) - den.log2 + 1) * den :=
          mul_le_mul_of_nonneg_left hden (by positivity)

/-- A quotient is less than 53 bits of its scale, and fills them if the scale isn't the least one. -/
theorem scale_spec {num den : Nat} (hnum : 0 < num) (hden : 0 < den) :
    -1074 ≤ scale num den ∧ (num : ℚ) / den < 2 ^ (scale num den + 53) ∧
      (scale num den = -1074 ∨ (2 : ℚ) ^ (scale num den + 52) ≤ num / den) := by
  have hfits (e : Int) : den <<< (e + 52).toNat ≤ num <<< (-(e + 52)).toNat ↔
      (2 : ℚ) ^ (e + 52) ≤ num / den := by
    have hpos : (0 : ℚ) < (den <<< (e + 52).toNat : Nat) := by exact_mod_cast shift_pos hden _
    rw [← one_le_div₀ (zpow_pos (by norm_num) (e + 52)), ← shift_div_shift, one_le_div₀ hpos,
      Nat.cast_le]
  obtain ⟨hlow, hhigh⟩ := zpow_log2_lt hnum hden
  -- The exponent that the quotient fills 53 bits of.
  obtain ⟨e, he, hbelow, habove⟩ : ∃ e : Int, scale num den = max (-1074) e ∧
      (2 : ℚ) ^ (e + 52) ≤ num / den ∧ (num : ℚ) / den < 2 ^ (e + 53) := by
    by_cases hguess : (2 : ℚ) ^ ((num.log2 : Int) - den.log2 - 52 + 52) ≤ num / den
    · refine ⟨_, ?_, hguess, hhigh.trans_eq (congrArg _ (by omega))⟩
      simp only [scale, hfits, hguess, decide_true, if_true]
    · refine ⟨(num.log2 : Int) - den.log2 - 52 - 1, ?_, (hlow.trans_eq' (congrArg _ (by omega))).le,
        (not_le.1 hguess).trans_eq (congrArg _ (by omega))⟩
      simp only [scale, hfits, hguess, decide_false, Bool.false_eq_true, if_false]
  rw [he]
  refine ⟨le_max_left _ _, habove.trans_le (zpow_le_zpow_right₀ (by norm_num) (by omega)), ?_⟩
  rcases le_total e (-1074) with hle | hle
  · exact .inl (max_eq_left hle)
  · rw [max_eq_right hle]
    exact .inr hbelow

/-! ### The numbers nearest to quotients -/

section Nearest

variable {num den : Nat}

/-- The bits that a quotient has at a scale. -/
def significand (num den : Nat) (e : Int) : Nat :=
  roundQuotient (num <<< (-e).toNat) (den <<< e.toNat)

theorem significand_le (hden : 0 < den) {e : Int} (h : (num : ℚ) / den < 2 ^ (e + 53)) :
    significand num den e ≤ 2 ^ 53 := by
  have hpos := shift_pos hden e.toNat
  refine roundQuotient_le hpos ?_
  rw [zpow_add₀ (by norm_num), mul_comm, ← div_lt_iff₀ (by positivity), ← shift_div_shift,
    div_lt_iff₀ (by exact_mod_cast hpos)] at h
  exact_mod_cast h

theorem le_significand_iff (hden : 0 < den) (e : Int) {m : Nat} (hm : m % 2 = 0) (hpos : 0 < m) :
    m ≤ significand num den e ↔ (2 * m - 1) * (2 : ℚ) ^ (e - 1) ≤ num / den := by
  have hshift := shift_pos hden e.toNat
  have hcast : ((2 * m - 1 : Nat) : ℚ) = 2 * m - 1 := by
    rw [Nat.cast_sub (by omega)]
    push_cast
    ring
  have hscaled : (0 : ℚ) < (den <<< e.toNat : Nat) := by exact_mod_cast hshift
  have hquotient : ((num <<< (-e).toNat : Nat) : ℚ) =
      num / den / 2 ^ e * (den <<< e.toNat : Nat) := by
    rw [← shift_div_shift, div_mul_cancel₀ _ hscaled.ne']
  rw [significand, le_roundQuotient_iff hshift hm hpos, ← Nat.cast_le (α := ℚ), Nat.cast_mul,
    Nat.cast_mul, hcast, hquotient, Nat.cast_ofNat, ← mul_assoc, mul_le_mul_iff_left₀ hscaled,
    zpow_sub_one₀ (by norm_num), mul_div_assoc', le_div_iff₀ (by positivity)]
  constructor <;> intro h <;> linarith

theorem zpow_le_bound : (2 : ℚ) ^ (1023 : Int) ≤ bound ∧ bound ≤ (2 : ℚ) ^ (1024 : Int) := by
  have hsplit (k : Nat) : (2 : ℚ) ^ ((k + 970 : Nat) : Int) = 2 ^ k * 2 ^ 970 := by
    rw [zpow_natCast, pow_add]
  have hpos : (0 : ℚ) ≤ 2 ^ 970 := by positivity
  refine ⟨(hsplit 53).trans_le ?_, le_trans ?_ (hsplit 54).ge⟩ <;>
    exact mul_le_mul_of_nonneg_right (by norm_num) hpos

/-- The number nearest to a quotient is finite if and only if the quotient is in range. -/
theorem nearest_lt_infinity_iff (hnum : 0 < num) (hden : 0 < den) :
    nearest num den < infinity ↔ (num : ℚ) / den < bound := by
  have hnearest : nearest num den = if significand num den (scale num den) < 2 ^ 52 then
      significand num den (scale num den) else (scale num den + 1075).toNat * 2 ^ 52 +
        (significand num den (scale num den) - 2 ^ 52) := by
    simp only [nearest, significand, Nat.shiftLeft_eq, one_mul]
  have hinfinity : infinity = 2047 * 2 ^ 52 := by decide
  obtain ⟨hleast, habove, hfills⟩ := scale_spec hnum hden
  have hmost := significand_le hden habove
  have hround {m : Nat} (hm : m % 2 = 0) (hpos : 0 < m) :
      m ≤ significand num den (scale num den) ↔
        (2 * m - 1) * (2 : ℚ) ^ (scale num den - 1) ≤ num / den :=
    le_significand_iff hden _ hm hpos
  rw [hnearest, hinfinity]
  generalize scale num den = e at *
  generalize significand num den e = bits at *
  have hpow {a b : Int} (h : a ≤ b) : (2 : ℚ) ^ a ≤ 2 ^ b := zpow_le_zpow_right₀ (by norm_num) h
  obtain ⟨hleft, hright⟩ := zpow_le_bound
  by_cases hsmall : bits < 2 ^ 52
  · -- Fewer bits than 53 are had at the least scale only.
    obtain rfl : e = -1074 := by
      refine hfills.resolve_right fun hfills => absurd ((hround (by decide) (by decide)).2 ?_)
        (Nat.not_le.2 hsmall)
      have hsplit : (2 : ℚ) ^ (e + 52) = 2 ^ 53 * 2 ^ (e - 1) := by
        rw [show e + 52 = (53 : Nat) + (e - 1) by omega, zpow_add₀ (by norm_num), zpow_natCast]
      refine le_trans ?_ (hsplit.symm.trans_le hfills)
      exact mul_le_mul_of_nonneg_right (by norm_num) (by positivity)
    rw [if_pos hsmall]
    exact iff_of_true (by omega) (habove.trans_le ((hpow (by norm_num)).trans hleft))
  rw [if_neg hsmall]
  rcases lt_trichotomy e 971 with he | rfl | he
  · exact iff_of_true (by omega) (habove.trans_le ((hpow (by omega)).trans hleft))
  · have hlast := (hround (m := 2 ^ 53) (by decide) (by decide)).not
    have hbound : (2 * ((2 ^ 53 : Nat) : ℚ) - 1) * 2 ^ ((971 : Int) - 1) = bound := by
      rw [show (971 : Int) - 1 = (970 : Nat) by norm_num, zpow_natCast, bound]
      exact congrArg (· * _) (by norm_num)
    rw [hbound, not_le, not_le] at hlast
    rw [← hlast]
    omega
  · have hlarge : bound ≤ (num : ℚ) / den :=
      hright.trans ((hpow (by omega)).trans (hfills.resolve_left (by omega)))
    exact iff_of_false (by omega) (not_lt.2 hlarge)

end Nearest

/-! ### Decimal text -/

/-- As many digits as a number has tell its size up to a factor of ten. -/
theorem zpow_length_le {digits : Nat} (hpos : 0 < digits) :
    (10 : ℚ) ^ (((Nat.toDigits 10 digits).length : Int) - 1) ≤ digits ∧
      (digits : ℚ) < 10 ^ ((Nat.toDigits 10 digits).length : Int) := by
  have hlength := Nat.length_toDigits_pos (b := 10) (n := digits)
  have hle (k : Nat) (hk : 0 < k) := Nat.length_toDigits_le_iff (n := digits) (b := 10) (k := k)
    (by decide) hk
  generalize (Nat.toDigits 10 digits).length = length at *
  constructor
  · rw [show (length : Int) - 1 = (length - 1 : Nat) by omega, zpow_natCast]
    rcases Nat.eq_zero_or_pos (length - 1) with hone | hmore
    · rw [hone, pow_zero]
      exact_mod_cast hpos
    · exact_mod_cast Nat.le_of_not_lt fun hlt => absurd ((hle _ hmore).2 hlt) (by omega)
  · rw [zpow_natCast]
    exact_mod_cast (hle _ hlength).1 le_rfl

/-- A number with a decimal exponent is read as a finite one if and only if it is in range. -/
theorem ofDecimal_lt_infinity_iff (digits : Nat) (exponent : Int) :
    ofDecimal digits exponent < infinity ↔ (digits : ℚ) * 10 ^ exponent < bound := by
  have hpow {a b : Int} (h : a ≤ b) : (10 : ℚ) ^ a ≤ 10 ^ b := zpow_le_zpow_right₀ (by norm_num) h
  have hbound : 0 < bound := lt_of_lt_of_le (by positivity) zpow_le_bound.1
  have hinfinity : 0 < infinity := by decide
  rcases Nat.eq_zero_or_pos digits with rfl | hpos
  · simpa [ofDecimal] using iff_of_true hinfinity hbound
  obtain ⟨hlow, hhigh⟩ := zpow_length_le hpos
  have hten : (0 : ℚ) < 10 ^ exponent := by positivity
  simp only [ofDecimal, hpos.ne', decide_false, Bool.false_or, decide_eq_true_eq]
  generalize ((Nat.toDigits 10 digits).length : Int) = length at *
  split_ifs with hsmall hlarge
  · refine iff_of_true hinfinity ?_
    calc (digits : ℚ) * 10 ^ exponent < 10 ^ length * 10 ^ exponent :=
          mul_lt_mul_of_pos_right hhigh hten
      _ = 10 ^ (length + exponent) := (zpow_add₀ (by norm_num) _ _).symm
      _ ≤ 10 ^ (0 : Int) := hpow (by omega)
      _ = 2 ^ (0 : Int) := by rw [zpow_zero, zpow_zero]
      _ ≤ 2 ^ (1023 : Int) := zpow_le_zpow_right₀ (by norm_num) (by norm_num)
      _ ≤ bound := zpow_le_bound.1
  · refine iff_of_false (Nat.lt_irrefl _) (not_lt.2 ?_)
    calc bound ≤ 2 ^ (1024 : Int) := zpow_le_bound.2
      _ ≤ 2 ^ ((3 * 400 : Nat) : Int) := zpow_le_zpow_right₀ (by norm_num) (by norm_num)
      _ = (2 ^ 3) ^ 400 := by rw [zpow_natCast, pow_mul]
      _ ≤ 10 ^ 400 := pow_le_pow_left₀ (by norm_num) (by norm_num) 400
      _ = 10 ^ ((400 : Nat) : Int) := (zpow_natCast _ _).symm
      _ ≤ 10 ^ (length - 1 + exponent) := hpow (by omega)
      _ = 10 ^ (length - 1) * 10 ^ exponent := zpow_add₀ (by norm_num) _ _
      _ ≤ digits * 10 ^ exponent := mul_le_mul_of_nonneg_right hlow hten.le
  · have hquotient : ((digits * Nat.pow 10 exponent.toNat : Nat) : ℚ) /
        (Nat.pow 10 (-exponent).toNat : Nat) = digits * 10 ^ exponent := by
      rcases Int.le_total 0 exponent with he | he
      · obtain ⟨n, rfl⟩ := Int.eq_ofNat_of_zero_le he
        simp
      · obtain ⟨n, hn⟩ := Int.eq_ofNat_of_zero_le (Int.neg_nonneg_of_nonpos he)
        obtain rfl : exponent = -(n : Int) := by omega
        simp [div_eq_mul_inv]
    have hpositive (k : Nat) : 0 < Nat.pow 10 k := Nat.pow_pos (by decide)
    rw [nearest_lt_infinity_iff (Nat.mul_pos hpos (hpositive _)) (hpositive _), hquotient]

/-- Decimal text is read as infinite if and only if what it denotes is out of range. -/
theorem read?_eq_infinite_iff {cs : List Char} : read? cs = some .infinite ↔
    ∃ decimal, Decimal.read? cs = some decimal ∧ bound ≤ decimal.magnitude := by
  rw [read?, Option.map_eq_some_iff]
  refine exists_congr fun decimal => and_congr_right fun _ => ?_
  rw [Decimal.magnitude, ← not_lt, ← ofDecimal_lt_infinity_iff]
  by_cases hfinite : ofDecimal decimal.digits decimal.exponent < infinity <;> simp [hfinite]

end GraphQLTree.Binary64
