import ContentSchema.Proofs.Number.Binary64.Rounding

/-!
# The shortest decimal

The decimals of `n` digits around a number form a grid. The search for the shortest decimal takes the
first grid that has a point in the interval of the numbers that round to the given one
(`Binary64.isInside_search`). A grid of seventeen digits has one, as its points are closer together
than the ends of the interval (`Binary64.near_of_fine`).

Result: the shortest decimal of a finite number rounds to the number (`Binary64.rounds_shortest`).
-/
namespace ContentSchema.Binary64

/-! ## Powers of ten -/

theorem climb_le {num den : Nat} (hden : 0 < den) (fuel : Nat) {k : Int}
    (hk : (10 : ℚ) ^ k ≤ num / den) : (10 : ℚ) ^ floorLog10.climb num den fuel k ≤ num / den := by
  induction fuel generalizing k with
  | zero => exact hk
  | succ fuel ih =>
    have hreached := reached_iff (b := 10) (by decide) num hden (k + 1)
    rw [floorLog10.climb]
    by_cases hr : (10 : ℚ) ^ (k + 1) ≤ num / den
    · rw [if_pos (hreached.2 hr)]
      exact ih hr
    · rw [if_neg (mt hreached.1 hr)]
      exact hk

/-- Powers of two bases compare as powers of theirs do. -/
theorem zpow_le_zpow_of_pow {x y : ℚ} (hx : 1 ≤ x) (hy : 0 < y) {a b : Nat} (hb : b ≠ 0)
    {i l : Int} (hi : b * i ≤ a * l) (h : (x ^ a) ^ l ≤ (y ^ b) ^ l) : x ^ i ≤ y ^ l := by
  refine le_of_pow_le_pow_left₀ hb (zpow_pos hy l).le ?_
  calc (x ^ i) ^ b = x ^ (b * i) := by rw [mul_comm, zpow_mul, zpow_natCast]
    _ ≤ x ^ (a * l) := zpow_le_zpow_right₀ hx hi
    _ = (x ^ a) ^ l := by rw [zpow_mul, zpow_natCast]
    _ ≤ (y ^ b) ^ l := h
    _ = (y ^ l) ^ b := by
      rw [← zpow_natCast, ← zpow_mul, mul_comm, zpow_mul, zpow_natCast]

/-- The first guess is not too high: `1233 / 4096` and `1234 / 4096` enclose the logarithm of two. -/
theorem ten_zpow_guess_le {l : Int} (hl : -4096 ≤ l) : (10 : ℚ) ^ (l * 1233 / 4096 - 1) ≤ 2 ^ l := by
  have hbelow : (10 : ℚ) ^ 1233 ≤ 2 ^ 4096 := by
    exact_mod_cast show 10 ^ 1233 ≤ 2 ^ 4096 by decide +kernel
  have habove : (2 : ℚ) ^ 4096 ≤ 10 ^ 1234 := by
    exact_mod_cast show 2 ^ 4096 ≤ 10 ^ 1234 by decide +kernel
  rcases le_total 0 l with hl | hneg
  · refine zpow_le_zpow_of_pow (a := 1233) (b := 4096) (by norm_num) two_pos (by decide) ?_ ?_
    · push_cast
      omega
    · exact zpow_le_zpow_left₀ hl (pow_pos (by norm_num) 1233).le hbelow
  · refine zpow_le_zpow_of_pow (a := 1234) (b := 4096) (by norm_num) two_pos (by decide) ?_ ?_
    · push_cast
      omega
    · obtain ⟨n, rfl⟩ := Int.exists_eq_neg_ofNat hneg
      rw [zpow_neg, zpow_neg]
      exact inv_anti₀ (zpow_pos (pow_pos two_pos _) _)
        (zpow_le_zpow_left₀ (Int.natCast_nonneg n) (pow_pos two_pos 4096).le habove)

theorem ten_zpow_floorLog10_le {num den : Nat} (hnum : 0 < num) (hden : 0 < den)
    (hl : -4096 ≤ floorLog2 num den) : (10 : ℚ) ^ floorLog10 num den ≤ num / den :=
  climb_le hden 4 ((ten_zpow_guess_le hl).trans (floorLog2_spec hnum hden).1)

/-! ## Grids -/

/-- Whether a decimal above zero lies in an interval. -/
def IsInside (low high den : Nat) (closed : Bool) (x : Nat × Int) : Prop :=
  x.1 ≠ 0 ∧ shortest.inside low high den closed x.1 x.2 = true

/-- Whether one of the two points of a grid that are next to a value lies in an interval. -/
def HasPoint (value low high den : Nat) (closed : Bool) (p : Int) : Prop :=
  IsInside low high den closed ((shortest.point value den p).1, p) ∨
    IsInside low high den closed ((shortest.point value den p).1 + 1, p)

section Grid

variable {den : Nat} (hden : 0 < den)

include hden

theorem point_spec (value : Nat) (p : Int) :
    ((shortest.point value den p).1 : ℚ) * 10 ^ p ≤ value / den ∧
      (value / den : ℚ) < ((shortest.point value den p).1 + 1) * 10 ^ p := by
  have hten : (0 : ℚ) < 10 ^ p := zpow_pos (by norm_num) p
  have hpos : (0 : ℚ) < den := Nat.cast_pos.2 hden
  have hfloor {n d : Nat} (hd : 0 < d) :
      ((n / d : Nat) : ℚ) * d ≤ n ∧ (n : ℚ) < ((n / d : Nat) + 1) * d := by
    constructor
    · exact_mod_cast Nat.div_mul_le_self n d
    · exact_mod_cast Nat.lt_mul_of_div_lt (Nat.lt_succ_self _) hd
  rw [le_div_iff₀ hpos, div_lt_iff₀ hpos, shortest.point]
  split
  · rename_i hp
    obtain ⟨hle, hlt⟩ := hfloor (n := value) (d := den * Nat.pow 10 p.toNat)
      (Nat.mul_pos hden (Nat.pow_pos (by decide)))
    rw [Nat.cast_mul, cast_pow_toNat 10 hp] at hle hlt
    push_cast at hle hlt
    constructor
    · linarith
    · linarith
  · rename_i hp
    obtain ⟨hle, hlt⟩ := hfloor (n := value * Nat.pow 10 (-p).toNat) hden
    rw [Nat.cast_mul, cast_pow_neg_toNat 10 hp, ← div_eq_mul_inv] at hle hlt
    push_cast at hle hlt
    rw [le_div_iff₀ hten] at hle
    rw [div_lt_iff₀ hten] at hlt
    constructor
    · linarith
    · linarith

theorem inside_iff (low high : Nat) (closed : Bool) (d : Nat) (p : Int) :
    shortest.inside low high den closed d p = true ↔
      if closed then (low / den : ℚ) ≤ d * 10 ^ p ∧ d * 10 ^ p ≤ (high / den : ℚ)
      else (low / den : ℚ) < d * 10 ^ p ∧ d * 10 ^ p < (high / den : ℚ) := by
  have hten : (0 : ℚ) < 10 ^ p := zpow_pos (by norm_num) p
  have hpos : (0 : ℚ) < den := Nat.cast_pos.2 hden
  rw [shortest.inside]
  have hunit : 0 < if 0 ≤ p then 1 else Nat.pow 10 (-p).toNat := by
    split
    · decide
    · exact Nat.pow_pos (by decide)
  have hx : ((if 0 ≤ p then d * Nat.pow 10 p.toNat * den else d * den : Nat) : ℚ) =
      d * 10 ^ p * den * (if 0 ≤ p then 1 else Nat.pow 10 (-p).toNat : Nat) := by
    split
    · rename_i hp
      rw [Nat.cast_mul, Nat.cast_mul, cast_pow_toNat 10 hp, Nat.cast_one, mul_one]
      rfl
    · rename_i hp
      rw [cast_pow_neg_toNat 10 hp, Nat.cast_mul, Nat.cast_ofNat]
      field_simp
  generalize (if 0 ≤ p then d * Nat.pow 10 p.toNat * den else d * den) = x at *
  generalize (if 0 ≤ p then 1 else Nat.pow 10 (-p).toNat) = unit at *
  have hpos : (0 : ℚ) < den := Nat.cast_pos.2 hden
  have hunit : (0 : ℚ) < unit := Nat.cast_pos.2 hunit
  have hle (a : Nat) : a * unit ≤ x ↔ (a / den : ℚ) ≤ d * 10 ^ p := by
    rw [div_le_iff₀ hpos, ← @Nat.cast_le ℚ, Nat.cast_mul, hx, mul_le_mul_iff_left₀ hunit]
  have hge (a : Nat) : x ≤ a * unit ↔ d * 10 ^ p ≤ (a / den : ℚ) := by
    rw [le_div_iff₀ hpos, ← @Nat.cast_le ℚ, Nat.cast_mul, hx, mul_le_mul_iff_left₀ hunit]
  cases closed with
  | true => simp only [if_true, Bool.and_eq_true, decide_eq_true_eq, hle, hge]
  | false =>
    simp only [Bool.false_eq_true, if_false, Bool.and_eq_true, decide_eq_true_eq, ← not_le, hle,
      hge]

omit hden in
/-- The search ends at a grid with a point of the interval, if there is one among those tried. -/
theorem isInside_search (value low high : Nat) (closed : Bool) (k : Int) {fuel n j : Nat}
    (hj : j < fuel) (h : HasPoint value low high den closed (k + 1 - (n + j : Nat))) :
    IsInside low high den closed (shortest.search value low high den closed k fuel n) := by
  induction fuel generalizing n j with
  | zero => exact absurd hj (Nat.not_lt_zero j)
  | succ fuel ih =>
    rw [shortest.search]
    dsimp only
    split
    · rename_i hboth
      simp only [Bool.and_eq_true, bne_iff_ne, ne_eq] at hboth
      split
      · exact ⟨Nat.succ_ne_zero _, hboth.2⟩
      · exact ⟨hboth.1.2, hboth.1.1⟩
    · split
      · rename_i hdown
        simp only [Bool.and_eq_true, bne_iff_ne, ne_eq] at hdown
        exact ⟨hdown.2, hdown.1⟩
      · rename_i hdown
        split
        · rename_i hup
          exact ⟨Nat.succ_ne_zero _, hup⟩
        · rename_i hup
          -- this grid has no point of the interval, so the one that has comes later
          cases j with
          | zero =>
            rcases h with h | h
            · exact absurd (Bool.and_eq_true_iff.2 ⟨h.2, bne_iff_ne.2 h.1⟩) hdown
            · exact absurd h.2 hup
          | succ j =>
            exact ih (j := j) (by omega) (by rwa [Nat.add_right_comm])

end Grid

/-! ## The interval of a number -/

variable {m : Nat} {e : Int}

/-- Where points are closer together than the ends of the interval, one of the two next to the number
lies between them. Below a power of two the interval is short, but there the points are closer still. -/
theorem near_of_fine (hm : IsFinite m e) {g : ℚ} (hg : 0 < g) {d : Nat} (hd : d * g ≤ m * 2 ^ e)
    (hd' : m * 2 ^ e < (d + 1) * g) (hfine : 10 ^ 16 * g ≤ m * 2 ^ e) :
    d ≠ 0 ∧ (Between m e (d * g) ∨ Between m e ((d + 1) * g)) := by
  have hu : (0 : ℚ) < 2 ^ e := zpow_pos two_pos e
  refine ⟨?_, ?_⟩
  · rintro rfl
    rw [Nat.cast_zero] at hd'
    linarith
  have hgap := le_lowGap_mul m e
  by_cases hdown : (4 * m - lowGap m e) * 2 ^ e < 4 * (d * g)
  · exact .inl ⟨hdown, by linarith⟩
  refine .inr ⟨by linarith, ?_⟩
  rcases lowGap_cases m e with h | ⟨h, hpower⟩
  · rw [h, Nat.cast_ofNat] at hdown
    linarith [hm.mul_le]
  · subst hpower
    have hbound : (fractionBound : ℚ) = 2 ^ 52 := by norm_num [fractionBound]
    rw [hbound] at hd hfine ⊢
    linarith

theorem Rounds.of_between {q : ℚ} (h : Between m e q) : Rounds m e q :=
  ⟨h.1.le, h.2.le, fun _ => h⟩

/-- Whether a search is for the decimals that round to a number. -/
structure Encloses (m : Nat) (e : Int) (value low high den : Nat) : Prop where
  /-- The bounds have a denominator. -/
  den_pos : 0 < den
  /-- The number itself. -/
  value_eq : (value / den : ℚ) = m * 2 ^ e
  /-- The middle of the number and the one before it. -/
  low_eq : (low / den : ℚ) = (4 * m - lowGap m e) * 2 ^ e / 4
  /-- The middle of the number and the one after it. -/
  high_eq : (high / den : ℚ) = (4 * m + 2) * 2 ^ e / 4

theorem shortest_eq (hm : IsFinite m e) :
    ∃ value low high den, Encloses m e value low high den ∧
      shortest m e = shortest.search value low high den (m % 2 == 0) (floorLog10 value den) 17 1 := by
  let scale := if 2 ≤ e then Nat.pow 2 (e - 2).toNat else 1
  let den := if 2 ≤ e then 1 else Nat.pow 2 (2 - e).toNat
  have hden : 0 < den := by
    simp only [den]
    split
    · decide
    · exact Nat.pow_pos two_pos
  have hfour : (2 : ℚ) ^ (e - 2) = 2 ^ e / 4 := by
    rw [zpow_sub₀ two_ne_zero]
    norm_num
  have hscale : (scale / den : ℚ) = 2 ^ e / 4 := by
    simp only [scale, den]
    split
    · rename_i he
      rw [cast_pow_toNat 2 (by omega), Nat.cast_one, div_one, ← hfour, Nat.cast_ofNat]
    · rename_i he
      rw [show 2 - e = -(e - 2) by omega, cast_pow_neg_toNat 2 (by omega), Nat.cast_one, one_div,
        inv_inv, ← hfour, Nat.cast_ofNat]
  have hscaled (n : Nat) : ((n * scale : Nat) / den : ℚ) = n * 2 ^ e / 4 := by
    rw [Nat.cast_mul, mul_div_assoc, hscale, mul_div_assoc]
  have hle : lowGap m e ≤ 4 * m := by
    have hgap := lowGap_le_two m e
    have hpos := hm.pos
    omega
  refine ⟨4 * m * scale, (4 * m - lowGap m e) * scale, (4 * m + 2) * scale, den,
    ⟨hden, ?_, ?_, ?_⟩, rfl⟩
  · rw [hscaled, Nat.cast_mul, mul_assoc, Nat.cast_ofNat]
    exact mul_div_cancel_left₀ _ four_ne_zero
  · rw [hscaled, Nat.cast_sub hle]
    push_cast
    rfl
  · rw [hscaled]
    push_cast
    rfl

section Search

variable {value low high den : Nat} (h : Encloses m e value low high den)

include h

/-- The test of the search is whether a decimal rounds to the number. -/
theorem Encloses.inside_iff_rounds (d : Nat) (p : Int) :
    shortest.inside low high den (m % 2 == 0) d p = true ↔ Rounds m e (d * 10 ^ p) := by
  rw [inside_iff h.den_pos, h.low_eq, h.high_eq]
  split
  · rename_i heven
    have heven := beq_iff_eq.1 heven
    constructor
    · intro ⟨hlow, hhigh⟩
      exact ⟨by linarith, by linarith, fun hodd => by omega⟩
    · intro hrounds
      exact ⟨by linarith [hrounds.low], by linarith [hrounds.high]⟩
  · rename_i heven
    have hodd : m % 2 = 1 := by
      have heven : m % 2 ≠ 0 := mt beq_iff_eq.2 heven
      omega
    constructor
    · intro ⟨hlow, hhigh⟩
      exact .of_between ⟨by linarith, by linarith⟩
    · intro hrounds
      obtain ⟨hlow, hhigh⟩ := hrounds.odd hodd
      exact ⟨by linarith, by linarith⟩

variable (hm : IsFinite m e)

include hm

/-- The search starts with a power of ten that is not above the number. -/
theorem Encloses.ten_zpow_le : (10 : ℚ) ^ floorLog10 value den ≤ m * 2 ^ e := by
  have hu : (0 : ℚ) < 2 ^ e := zpow_pos two_pos e
  have hone : (1 : ℚ) ≤ m := by exact_mod_cast hm.pos
  have hvalue := h.value_eq
  have hpos : 0 < value := by
    rcases Nat.eq_zero_or_pos value with hzero | hpos
    · rw [hzero, Nat.cast_zero, zero_div] at hvalue
      have := mul_pos (zero_lt_one.trans_le hone) hu
      linarith
    · exact hpos
  have hbelow : (2 : ℚ) ^ e < 2 ^ (floorLog2 value den + 1) := by
    refine lt_of_le_of_lt ?_ (floorLog2_spec hpos h.den_pos).2
    rw [hvalue]
    exact le_mul_of_one_le_left hu.le hone
  have hbelow := (zpow_lt_zpow_iff_right₀ one_lt_two).1 hbelow
  have hleast := hm.least_le
  rw [← hvalue]
  exact ten_zpow_floorLog10_le hpos h.den_pos (by omega)

/-- The last grid of the search has a point that rounds to the number. -/
theorem Encloses.hasPoint :
    HasPoint value low high den (m % 2 == 0) (floorLog10 value den + 1 - (1 + 16 : Nat)) := by
  have hten := h.ten_zpow_le hm
  generalize floorLog10 value den = k at *
  have hfine : (10 : ℚ) ^ 16 * 10 ^ (k + 1 - (1 + 16 : Nat)) ≤ m * 2 ^ e := by
    rw [← zpow_natCast, ← zpow_add₀ (by norm_num)]
    rwa [show ((16 : Nat) : Int) + (k + 1 - (1 + 16 : Nat)) = k by omega]
  generalize k + 1 - (1 + 16 : Nat) = p at *
  obtain ⟨hd, hd'⟩ := point_spec h.den_pos value p
  rw [h.value_eq] at hd hd'
  obtain ⟨hne, hnear⟩ := near_of_fine hm (zpow_pos (by norm_num) p) hd hd' hfine
  refine hnear.imp (fun hbetween => ⟨hne, ?_⟩) fun hbetween => ⟨Nat.succ_ne_zero _, ?_⟩
  · exact (h.inside_iff_rounds _ p).2 (.of_between hbetween)
  · refine (h.inside_iff_rounds _ p).2 (.of_between ?_)
    rwa [Nat.cast_add, Nat.cast_one]

end Search

/-- The shortest decimal of a finite number rounds to the number. -/
theorem rounds_shortest (hm : IsFinite m e) :
    Rounds m e ((shortest m e).1 * 10 ^ (shortest m e).2) := by
  obtain ⟨value, low, high, den, h, heq⟩ := shortest_eq hm
  obtain ⟨-, hinside⟩ := isInside_search value low high (m % 2 == 0) (floorLog10 value den)
    (by decide : 16 < 17) (h.hasPoint hm)
  rw [heq]
  exact (h.inside_iff_rounds _ _).1 hinside

end ContentSchema.Binary64
