import ContentSchema.Number.Binary64.Shortest
import Mathlib.Algebra.Order.Field.Power
import Mathlib.Data.Rat.Cast.Order
import Mathlib.Tactic.FieldSimp
import Mathlib.Tactic.Linarith
import Mathlib.Tactic.NormNum
import Mathlib.Tactic.Positivity

/-!
# Rounding to floating point numbers

A finite number above zero has a significand and an exponent (`Binary64.IsFinite`), and all rational
numbers of an interval around it round to it (`Binary64.Rounds`). The interval goes half way to both
neighbours and holds its ends if the significand is even.

Result: the number nearest to a ratio is the one in whose interval the ratio lies
(`Binary64.ofRatio_of_rounds`).
-/
namespace ContentSchema.Binary64

/-! ## Powers -/

section Powers

variable (b : Nat) {e : Int}

theorem cast_pow_toNat (he : 0 ≤ e) : ((Nat.pow b e.toNat : Nat) : ℚ) = (b : ℚ) ^ e := by
  obtain ⟨n, rfl⟩ := Int.eq_ofNat_of_zero_le he
  simp

theorem cast_pow_neg_toNat (he : ¬ 0 ≤ e) :
    ((Nat.pow b (-e).toNat : Nat) : ℚ) = ((b : ℚ) ^ e)⁻¹ := by
  rw [cast_pow_toNat b (by omega), zpow_neg]

variable {b}

/-- How a ratio is compared with a power. -/
theorem reached_iff (hb : 0 < b) (num : Nat) {den : Nat} (hden : 0 < den) (e : Int) :
    (if 0 ≤ e then den * Nat.pow b e.toNat ≤ num else den ≤ num * Nat.pow b (-e).toNat) ↔
      (b : ℚ) ^ e ≤ num / den := by
  have hb : (0 : ℚ) < (b : ℚ) ^ e := zpow_pos (Nat.cast_pos.2 hb) e
  have hden : (0 : ℚ) < den := Nat.cast_pos.2 hden
  rw [le_div_iff₀ hden]
  split
  · rename_i he
    rw [← @Nat.cast_le ℚ, Nat.cast_mul, cast_pow_toNat b he, mul_comm]
  · rename_i he
    rw [← @Nat.cast_le ℚ, Nat.cast_mul, cast_pow_neg_toNat b he, ← div_eq_mul_inv,
      le_div_iff₀ hb, mul_comm]

end Powers

/-! ## The exponent of a ratio -/

theorem floorLog2_spec {num den : Nat} (hnum : 0 < num) (hden : 0 < den) :
    (2 : ℚ) ^ floorLog2 num den ≤ num / den ∧ (num / den : ℚ) < 2 ^ (floorLog2 num den + 1) := by
  have hbounds {n : Nat} (hn : 0 < n) :
      (2 : ℚ) ^ (n.log2 : Int) ≤ n ∧ (n : ℚ) < 2 ^ ((n.log2 : Int) + 1) := by
    constructor
    · rw [zpow_natCast]
      exact_mod_cast Nat.log2_self_le (Nat.ne_of_gt hn)
    · exact_mod_cast Nat.lt_log2_self (n := n)
  obtain ⟨hlow, hhigh⟩ := hbounds hnum
  obtain ⟨hlow', hhigh'⟩ := hbounds hden
  have hpos : (0 : ℚ) < den := Nat.cast_pos.2 hden
  have hreached := reached_iff (b := 2) (by decide) num hden
  rw [floorLog2]
  generalize (num.log2 : Int) = a at *
  generalize (den.log2 : Int) = c at *
  have hbelow : (2 : ℚ) ^ (a - c - 1) ≤ num / den := by
    rw [le_div_iff₀ hpos]
    calc (2 : ℚ) ^ (a - c - 1) * den ≤ 2 ^ (a - c - 1) * 2 ^ (c + 1) := by gcongr
      _ = 2 ^ a := by rw [← zpow_add₀ two_ne_zero]; congr 1; omega
      _ ≤ num := hlow
  have habove : (num / den : ℚ) < 2 ^ (a - c + 1) := by
    rw [div_lt_iff₀ hpos]
    calc (num : ℚ) < 2 ^ (a + 1) := hhigh
      _ = 2 ^ (a - c + 1) * 2 ^ c := by rw [← zpow_add₀ two_ne_zero]; congr 1; omega
      _ ≤ 2 ^ (a - c + 1) * den := by gcongr
  by_cases hr : (2 : ℚ) ^ (a - c) ≤ num / den
  · rw [if_pos ((hreached (a - c)).2 hr)]
    exact ⟨hr, habove⟩
  · rw [if_neg (mt (hreached (a - c)).1 hr), sub_add_cancel]
    exact ⟨hbelow, not_le.1 hr⟩

/-! ## Rounding to an integer -/

/-- Whether an integer is a nearest one to a number, and the even one if there are two. -/
structure IsNearest (m : Nat) (q : ℚ) : Prop where
  /-- The number is not below the half before it. -/
  low : 2 * m - 1 ≤ 2 * q
  /-- The number is not above the half after it. -/
  high : 2 * q ≤ 2 * m + 1
  /-- The halves belong to the even integers. -/
  odd : m % 2 = 1 → 2 * m - 1 < 2 * q ∧ 2 * q < 2 * m + 1

theorem isNearest_div {m : Nat} {q u : ℚ} (hu : 0 < u) (hlow : (2 * m - 1) * u ≤ 2 * q)
    (hhigh : 2 * q ≤ (2 * m + 1) * u)
    (hodd : m % 2 = 1 → (2 * m - 1) * u < 2 * q ∧ 2 * q < (2 * m + 1) * u) :
    IsNearest m (q / u) where
  low := by rwa [mul_div_assoc', le_div_iff₀ hu]
  high := by rwa [mul_div_assoc', div_le_iff₀ hu]
  odd hm := by
    rw [mul_div_assoc', lt_div_iff₀ hu, div_lt_iff₀ hu]
    exact hodd hm

theorem roundHalfEven_eq {num den m : Nat} (hden : 0 < den) (h : IsNearest m (num / den)) :
    roundHalfEven num den = m := by
  have hpos : (0 : ℚ) < den := Nat.cast_pos.2 hden
  obtain ⟨hlow, hhigh, hodd⟩ := h
  rw [mul_div_assoc', le_div_iff₀ hpos] at hlow
  rw [mul_div_assoc', div_le_iff₀ hpos] at hhigh
  rw [mul_div_assoc', lt_div_iff₀ hpos, div_lt_iff₀ hpos] at hodd
  -- the same over the integers, with the quotient and the remainder
  have hdiv := Nat.div_add_mod num den
  have hmod := Nat.mod_lt num hden
  rw [roundHalfEven]
  generalize num / den = q at *
  generalize num % den = r at *
  have hlow : (2 * m - 1 : Int) * den ≤ 2 * num := by exact_mod_cast hlow
  have hhigh : (2 * num : Int) ≤ (2 * m + 1) * den := by exact_mod_cast hhigh
  have hodd (hm : m % 2 = 1) :
      (2 * m - 1 : Int) * den < 2 * num ∧ (2 * num : Int) < (2 * m + 1) * den := by
    exact_mod_cast hodd hm
  have hdiv : (num : Int) = den * q + r := by exact_mod_cast hdiv.symm
  have hmod : (r : Int) < den := by exact_mod_cast hmod
  have hm : m = q ∨ m = q + 1 := by
    have h1 : (2 * m - 1 : Int) < 2 * q + 2 :=
      lt_of_mul_lt_mul_right (by linarith : _ * (den : Int) < _ * den) (by omega)
    have h2 : (2 * q : Int) < 2 * m + 2 :=
      lt_of_mul_lt_mul_right (by linarith : _ * (den : Int) < _ * den) (by omega)
    omega
  rcases hm with rfl | rfl
  · have hr : (2 * r : Int) ≤ den := by linarith
    have hodd (hm : m % 2 = 1) : (2 * r : Int) < den := by linarith [(hodd hm).2]
    split
    · rfl
    · rw [if_neg (by omega)]
      omega
  · have hr : (den : Int) ≤ 2 * r := by
      push_cast at hlow
      linarith
    have hodd (hm : (q + 1) % 2 = 1) : (den : Int) < 2 * r := by
      have := (hodd hm).1
      push_cast at this
      linarith
    rw [if_neg (by omega)]
    split
    · rfl
    · omega

/-- A number rounded after it was divided by a power of two. -/
theorem scaled_roundHalfEven_eq {num den m : Nat} (hden : 0 < den) {e : Int}
    (h : IsNearest m (num / den / 2 ^ e)) :
    (if 0 ≤ e then roundHalfEven num (den * Nat.pow 2 e.toNat)
      else roundHalfEven (num * Nat.pow 2 (-e).toNat) den) = m := by
  split
  · rename_i he
    refine roundHalfEven_eq (Nat.mul_pos hden (Nat.pow_pos two_pos)) ?_
    rwa [Nat.cast_mul, cast_pow_toNat 2 he, ← div_div]
  · rename_i he
    refine roundHalfEven_eq hden ?_
    rwa [Nat.cast_mul, cast_pow_neg_toNat 2 he, ← div_eq_mul_inv, div_right_comm]

/-! ## Rounding to a significand -/

/-- The significands and exponents of finite numbers above zero: only with the least exponent the
significand may have fewer than 53 bits. -/
structure IsFinite (m : Nat) (e : Int) : Prop where
  /-- The number is not zero. -/
  pos : 0 < m
  /-- The significand has 53 bits at most. -/
  lt : m < 2 * fractionBound
  /-- The exponent is not below the least one. -/
  least_le : -1074 ≤ e
  /-- The exponent is not above the greatest one. -/
  le_greatest : e ≤ 971
  /-- The significand has 53 bits. -/
  leading : e = -1074 ∨ fractionBound ≤ m

/-- The numbers between the middles of `m * 2 ^ e` and its neighbours. -/
def Between (m : Nat) (e : Int) (q : ℚ) : Prop :=
  (4 * m - lowGap m e) * 2 ^ e < 4 * q ∧ 4 * q < (4 * m + 2) * 2 ^ e

/-- The numbers that round to `m * 2 ^ e`. -/
structure Rounds (m : Nat) (e : Int) (q : ℚ) : Prop where
  /-- They are not below the middle of the number and the one before it. -/
  low : (4 * m - lowGap m e) * 2 ^ e ≤ 4 * q
  /-- They are not above the middle of the number and the one after it. -/
  high : 4 * q ≤ (4 * m + 2) * 2 ^ e
  /-- The middles belong to the even significands. -/
  odd : m % 2 = 1 → Between m e q

variable {m : Nat} {e : Int} {q : ℚ}

theorem lowGap_cases (m : Nat) (e : Int) :
    lowGap m e = 2 ∨ (lowGap m e = 1 ∧ m = fractionBound) := by
  rw [lowGap]
  split
  · rename_i h
    exact .inr ⟨rfl, beq_iff_eq.1 (Bool.and_eq_true_iff.1 h).1⟩
  · exact .inl rfl

theorem one_le_lowGap (m : Nat) (e : Int) : 1 ≤ lowGap m e := by
  have := lowGap_cases m e
  omega

theorem lowGap_le_two (m : Nat) (e : Int) : lowGap m e ≤ 2 := by
  have := lowGap_cases m e
  omega

theorem lowGap_mul_le (m : Nat) (e : Int) : (lowGap m e : ℚ) * 2 ^ e ≤ 2 * 2 ^ e := by
  have hu : (0 : ℚ) < 2 ^ e := zpow_pos two_pos e
  gcongr
  exact_mod_cast lowGap_le_two m e

theorem le_lowGap_mul (m : Nat) (e : Int) : (2 : ℚ) ^ e ≤ lowGap m e * 2 ^ e := by
  rw [le_mul_iff_one_le_left (zpow_pos two_pos e)]
  exact_mod_cast one_le_lowGap m e

theorem lowGap_fractionBound (he : -1074 < e) : lowGap fractionBound e = 1 := by
  rw [lowGap, decide_eq_true he, beq_self_eq_true]
  rfl

/-- The magnitude of a finite number. -/
def magnitudeOf (m : Nat) (e : Int) : Nat := (e + 1074).toNat * fractionBound + m

/-- The exponent that a ratio is rounded at. -/
theorem exponent_eq {num den : Nat} (hden : 0 < den) (hpos : (0 : ℚ) < num / den)
    (hleast : -1074 ≤ e) (hlow : e = -1074 ∨ (2 : ℚ) ^ (e + 52) ≤ num / den)
    (hhigh : (num / den : ℚ) < 2 ^ (e + 53)) : max (floorLog2 num den - 52) (-1074) = e := by
  have hnum : 0 < num := by
    rcases Nat.eq_zero_or_pos num with h | h
    · rw [h, Nat.cast_zero, zero_div] at hpos
      exact absurd hpos (lt_irrefl 0)
    · exact h
  obtain ⟨hlow', hhigh'⟩ := floorLog2_spec hnum hden
  have habove := (zpow_lt_zpow_iff_right₀ one_lt_two).1 (hlow'.trans_lt hhigh)
  rcases hlow with rfl | hlow
  · omega
  · have hbelow := (zpow_lt_zpow_iff_right₀ one_lt_two).1 (hlow.trans_lt hhigh')
    omega

theorem two_zpow_add (e : Int) (n : Nat) : (2 : ℚ) ^ (e + n) = 2 ^ n * 2 ^ e := by
  rw [zpow_add₀ two_ne_zero, zpow_natCast, mul_comm]

theorem IsFinite.mul_le (hm : IsFinite m e) : (m : ℚ) * 2 ^ e ≤ 2 ^ 53 * 2 ^ e := by
  have hu : (0 : ℚ) < 2 ^ e := zpow_pos two_pos e
  gcongr
  exact_mod_cast hm.lt.le

theorem Rounds.pos (h : Rounds m e q) (hm : IsFinite m e) : 0 < q := by
  have hm : (1 : ℚ) ≤ m := by exact_mod_cast hm.pos
  have hgap : (lowGap m e : ℚ) ≤ 2 := by exact_mod_cast lowGap_le_two m e
  have hlow : 0 < (4 * m - lowGap m e) * (2 : ℚ) ^ e :=
    mul_pos (by linarith) (zpow_pos two_pos e)
  linarith [h.low]

theorem Rounds.lt_two_zpow (h : Rounds m e q) (hm : IsFinite m e) : q < 2 ^ (e + 53) := by
  have hu : (0 : ℚ) < 2 ^ e := zpow_pos two_pos e
  have hlt : m + 1 ≤ 2 ^ 53 := hm.lt
  have hlt : (m : ℚ) + 1 ≤ 2 ^ 53 := by exact_mod_cast hlt
  have hbelow : (4 * m + 2) * (2 : ℚ) ^ e < 4 * 2 ^ 53 * 2 ^ e := by
    gcongr
    linarith
  have hpower := two_zpow_add e 53
  push_cast at hpower
  linarith [h.high]

/-- What rounds to a number is nearest to its significand at its own exponent. -/
theorem Rounds.isNearest (h : Rounds m e q) : IsNearest m (q / 2 ^ e) := by
  have hgap := lowGap_mul_le m e
  refine isNearest_div (zpow_pos two_pos e) ?_ ?_ fun hodd => ⟨?_, ?_⟩
  · linarith [h.low]
  · linarith [h.high]
  · linarith [(h.odd hodd).1]
  · linarith [(h.odd hodd).2]

/-- Only the lower part of the interval of a power of two lies below that power. -/
theorem Rounds.eq_fractionBound (h : Rounds m e q) (hm : IsFinite m e) (hleast : e ≠ -1074)
    (hbelow : q < 2 ^ 52 * 2 ^ e) : m = fractionBound := by
  have hgap := lowGap_mul_le m e
  have hlt : (4 * m - 2 : ℚ) < 4 * 2 ^ 52 :=
    lt_of_mul_lt_mul_right (by linarith [h.low] : _ * (2 : ℚ) ^ e < _ * 2 ^ e)
      (zpow_pos two_pos e).le
  have hle := hm.leading.resolve_left hleast
  have hlt : 4 * m < 4 * 2 ^ 52 + 2 := by exact_mod_cast sub_lt_iff_lt_add.1 hlt
  simp only [fractionBound] at hle ⊢
  omega

/-- What rounds to a power of two from below is rounded up to it at the exponent before. -/
theorem Rounds.isNearest_below (h : Rounds fractionBound e q) (he : -1074 < e)
    (hbelow : q < 2 ^ 52 * 2 ^ e) :
    (2 : ℚ) ^ (e - 1 + 52) ≤ q ∧ q < 2 ^ (e - 1 + 53) ∧
      IsNearest (2 * fractionBound) (q / 2 ^ (e - 1)) := by
  have hhalf : (2 : ℚ) ^ e = 2 * 2 ^ (e - 1) := by
    rw [mul_comm, ← zpow_add_one₀ two_ne_zero, sub_add_cancel]
  have hbound : (fractionBound : ℚ) = 2 ^ 52 := by norm_num [fractionBound]
  have hlow := h.low
  rw [lowGap_fractionBound he, hbound, hhalf, Nat.cast_one] at hlow
  rw [hhalf] at hbelow
  have hu : (0 : ℚ) < 2 ^ (e - 1) := zpow_pos two_pos (e - 1)
  have hpower := two_zpow_add (e - 1) 52
  have hpower' := two_zpow_add (e - 1) 53
  push_cast at hpower hpower'
  refine ⟨by linarith, by linarith, isNearest_div hu ?_ ?_ fun hodd => ?_⟩
  · rw [Nat.cast_mul, hbound]
    push_cast
    linarith
  · rw [Nat.cast_mul, hbound]
    push_cast
    linarith
  · exact absurd hodd (by decide)

/-- A ratio that rounds to a finite number is rounded at the number's own exponent, or it lies below
a power of two and is rounded up to it at the exponent before. -/
theorem Rounds.exists_nearest (h : Rounds m e q) (hm : IsFinite m e) :
    ∃ (k : Nat) (i : Int), -1074 ≤ i ∧ (i = -1074 ∨ (2 : ℚ) ^ (i + 52) ≤ q) ∧ q < 2 ^ (i + 53) ∧
      IsNearest k (q / 2 ^ i) ∧ magnitudeOf k i = magnitudeOf m e := by
  by_cases hown : e = -1074 ∨ (2 : ℚ) ^ (e + 52) ≤ q
  · exact ⟨m, e, hm.least_le, hown, h.lt_two_zpow hm, h.isNearest, rfl⟩
  · obtain ⟨hleast, hbelow⟩ := not_or.1 hown
    have hbelow : q < 2 ^ 52 * 2 ^ e := by
      have hpower := two_zpow_add e 52
      push_cast at hpower
      linarith
    obtain rfl := h.eq_fractionBound hm hleast hbelow
    have he := hm.least_le
    obtain ⟨hlow, hhigh, hnearest⟩ := h.isNearest_below (by omega) hbelow
    refine ⟨2 * fractionBound, e - 1, by omega, .inr hlow, hhigh, hnearest, ?_⟩
    simp only [magnitudeOf, fractionBound]
    omega

theorem magnitudeOf_lt (hm : IsFinite m e) : magnitudeOf m e < infinityMagnitude := by
  obtain ⟨-, hlt, hleast, hgreatest, -⟩ := hm
  simp only [magnitudeOf, infinityMagnitude, fractionBound] at *
  omega

/-- The number nearest to a ratio is the one in whose interval the ratio lies. -/
theorem ofRatio_of_rounds {num den : Nat} (hden : 0 < den) (hm : IsFinite m e)
    (h : Rounds m e (num / den)) (negative : Bool) :
    ofRatio negative num den = ofMagnitude negative (magnitudeOf m e) := by
  have hpos := h.pos hm
  have hnum : num ≠ 0 := by
    rintro rfl
    simp at hpos
  obtain ⟨k, i, hleast, hlow, hhigh, hnearest, hmagnitude⟩ := h.exists_nearest hm
  rw [ofRatio, if_neg hnum]
  dsimp only
  rw [exponent_eq hden hpos hleast hlow hhigh, scaled_roundHalfEven_eq hden hnearest,
    ← hmagnitude, Nat.min_eq_left]
  · rfl
  · rw [show (i + 1074).toNat * fractionBound + k = magnitudeOf k i from rfl, hmagnitude]
    exact (magnitudeOf_lt hm).le

/-! ## The number of a bit pattern -/

theorem ofMagnitude_magnitude (x : Binary64) : ofMagnitude x.isNegative x.magnitude = x := by
  have hlt := x.bits.toNat_lt
  have hbits : x.magnitude + (if x.isNegative then signWeight else 0) = x.bits.toNat := by
    rw [magnitude]
    cases hn : x.isNegative with
    | true =>
      have h : signWeight ≤ x.bits.toNat := of_decide_eq_true hn
      simp only [signWeight, if_true] at h ⊢
      omega
    | false =>
      have h : ¬ signWeight ≤ x.bits.toNat := of_decide_eq_false hn
      simp only [signWeight, Bool.false_eq_true, if_false] at h ⊢
      omega
  rw [ofMagnitude, hbits, UInt64.ofNat_toNat]

/-- Every bit pattern but those of zeros, infinities and NaNs has a significand and an exponent. -/
theorem isFinite_decompose {x : Binary64} (hzero : x.magnitude ≠ 0)
    (hlt : x.magnitude < infinityMagnitude) :
    IsFinite x.decompose.1 x.decompose.2 ∧
      magnitudeOf x.decompose.1 x.decompose.2 = x.magnitude := by
  have hdiv := Nat.div_add_mod x.magnitude fractionBound
  have hmod := Nat.mod_lt x.magnitude (show fractionBound > 0 by decide)
  rw [decompose]
  generalize x.magnitude / fractionBound = exponent at *
  generalize x.magnitude % fractionBound = fraction at *
  simp only [infinityMagnitude, fractionBound, Int.ofNat_eq_natCast] at *
  split
  · refine ⟨⟨by omega, ?_, by omega, by omega, .inl rfl⟩, ?_⟩ <;>
      simp only [magnitudeOf, fractionBound] <;> omega
  · refine ⟨⟨by omega, ?_, by omega, by omega, .inr ?_⟩, ?_⟩ <;>
      simp only [magnitudeOf, fractionBound] <;> omega

theorem rounds_self (m : Nat) (e : Int) : Rounds m e (m * 2 ^ e) := by
  have hu : (0 : ℚ) < 2 ^ e := zpow_pos two_pos e
  have hgap := le_lowGap_mul m e
  exact ⟨by linarith, by linarith, fun _ => ⟨by linarith, by linarith⟩⟩

end ContentSchema.Binary64
