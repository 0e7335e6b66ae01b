import ContentSchema.Number.Binary64.Reader
import ContentSchema.Proofs.Number.Binary64.Shortest
import ContentSchema.Proofs.Number.Decimals
import Mathlib.Data.List.TakeWhile

/-!
# Floating point numbers read back

The text of a finite number has digits and at most one point (`Binary64.exists_parts`). What it
stands for rounds to the number, be it the number itself or its shortest decimal, so the text reads
back as the number (`Binary64.read_text`). The text of a NaN tells nothing but that.
-/
namespace ContentSchema.Binary64

variable {m : Nat} {e : Int}

/-! ## Decimals -/

theorem dropTrailingZeros_spec (fuel d : Nat) (p : Int) :
    ((dropTrailingZeros fuel d p).1 : ℚ) * 10 ^ (dropTrailingZeros fuel d p).2 = d * 10 ^ p := by
  induction fuel generalizing d p with
  | zero => rfl
  | succ fuel ih =>
    rw [dropTrailingZeros]
    split
    · rename_i h
      have hdiv : d = d / 10 * 10 := by
        have := beq_iff_eq.1 (Bool.and_eq_true_iff.1 h).1
        omega
      have hcast : (d : ℚ) = (d / 10 : Nat) * 10 := by exact_mod_cast hdiv
      rw [ih, hcast, zpow_add_one₀ (by norm_num), mul_assoc, mul_comm (10 : ℚ)]
    · rfl

theorem pow_length_toDigits {d : Nat} (hd : d ≠ 0) :
    d < 10 ^ (Nat.toDigits 10 d).length ∧ 10 ^ (Nat.toDigits 10 d).length ≤ 10 * d := by
  have hpos : 0 < (Nat.toDigits 10 d).length := List.length_pos_of_ne_nil Nat.toDigits_ne_nil
  refine ⟨(Nat.length_toDigits_le_iff (by decide) hpos).1 le_rfl, ?_⟩
  generalize hlen : (Nat.toDigits 10 d).length = len at *
  obtain ⟨len, rfl⟩ := Nat.exists_eq_add_one_of_ne_zero hpos.ne'
  rw [Nat.pow_succ, Nat.mul_comm]
  refine Nat.mul_le_mul_left 10 ?_
  rcases Nat.eq_zero_or_pos len with rfl | hlen'
  · exact Nat.one_le_iff_ne_zero.2 hd
  · by_contra hlt
    have := (Nat.length_toDigits_le_iff (by decide) hlen').2 (not_le.1 hlt)
    omega

/-- What rounds to a finite number is neither very large nor very small. -/
theorem Rounds.bounds {q : ℚ} (h : Rounds m e q) (hm : IsFinite m e) :
    q < 10 ^ (399 : Int) ∧ (10 : ℚ) ^ (-400 : Int) < q := by
  have hu : (0 : ℚ) < 2 ^ e := zpow_pos two_pos e
  have hgreatest : (2 : ℚ) ^ e ≤ 2 ^ (971 : Int) := zpow_le_zpow_right₀ one_le_two hm.le_greatest
  have hleast : (2 : ℚ) ^ (-1074 : Int) ≤ 2 ^ e := zpow_le_zpow_right₀ one_le_two hm.least_le
  have hone : (1 : ℚ) * 2 ^ e ≤ m * 2 ^ e := by
    gcongr
    exact_mod_cast hm.pos
  have hlt := hm.mul_le
  have hgap := lowGap_mul_le m e
  constructor
  · have hnumeral : (2 ^ 53 + 1 : ℚ) * 2 ^ (971 : Int) < 10 ^ (399 : Int) := by
      exact_mod_cast show (2 ^ 53 + 1) * 2 ^ 971 < 10 ^ 399 by decide +kernel
    generalize (10 : ℚ) ^ (399 : Int) = bound at *
    generalize (2 : ℚ) ^ (971 : Int) = greatest at *
    linarith [h.high]
  · have hnumeral : (2 : ℚ) * 2 ^ (1074 : Int) < 10 ^ (400 : Int) := by
      exact_mod_cast show 2 * 2 ^ 1074 < 10 ^ 400 by decide +kernel
    have hinv : (10 ^ (400 : Int) : ℚ)⁻¹ < (2 * 2 ^ (1074 : Int))⁻¹ :=
      inv_strictAnti₀ (mul_pos two_pos (zpow_pos two_pos _)) hnumeral
    rw [mul_inv, ← zpow_neg, ← zpow_neg] at hinv
    linarith [h.low]

/-- A decimal is read as the number that it rounds to. -/
theorem ofDecimal_of_rounds (hm : IsFinite m e) {d : Nat} {p : Int} (h : Rounds m e (d * 10 ^ p))
    (negative : Bool) : ofDecimal negative d p = ofMagnitude negative (magnitudeOf m e) := by
  have hd : d ≠ 0 := by
    rintro rfl
    have := h.pos hm
    simp at this
  obtain ⟨hhigh, hlow⟩ := h.bounds hm
  obtain ⟨hlt, hle⟩ := pow_length_toDigits hd
  have hten : (0 : ℚ) < 10 ^ p := zpow_pos (by norm_num) p
  rw [ofDecimal]
  generalize (Nat.toDigits 10 d).length = len at *
  have hlt : (d : ℚ) * 10 ^ p < 10 ^ (len + p) := by
    rw [zpow_add₀ (by norm_num), zpow_natCast]
    gcongr
    exact_mod_cast hlt
  have hle : (10 : ℚ) ^ (len + p - 1) ≤ d * 10 ^ p := by
    rw [zpow_sub_one₀ (by norm_num), zpow_add₀ (by norm_num), zpow_natCast, ← div_eq_mul_inv,
      div_le_iff₀ (by norm_num), mul_right_comm]
    gcongr
    rw [mul_comm]
    exact_mod_cast hle
  have hsmall : len + p - 1 < 399 :=
    (zpow_lt_zpow_iff_right₀ (by norm_num)).1 (hle.trans_lt hhigh)
  have hlarge : -400 < len + p := (zpow_lt_zpow_iff_right₀ (by norm_num)).1 (hlow.trans hlt)
  rw [if_neg hd, if_neg (by omega), if_neg (by omega)]
  split
  · rename_i hp
    refine ofRatio_of_rounds one_pos hm ?_ negative
    rwa [Nat.cast_mul, cast_pow_toNat 10 hp, Nat.cast_one, div_one]
  · rename_i hp
    have hunit : 0 < Nat.pow 10 (-p).toNat := Nat.pow_pos (by decide)
    refine ofRatio_of_rounds hunit hm ?_ negative
    rwa [cast_pow_neg_toNat 10 hp, div_inv_eq_mul]

/-! ## Digits and a point -/

theorem digitsValue_eq (acc : Nat) (cs : List Char) :
    digitsValue acc cs = Nat.ofDigitChars 10 cs acc := by
  induction cs generalizing acc with
  | nil => rfl
  | cons c cs ih =>
    rw [ofDigitChars_cons_mul, ← ih]
    rfl

/-- Places behind a point, if there are any. -/
def pointed (places : List Char) : List Char := if places = [] then [] else '.' :: places

theorem mem_pointed {places : List Char} {c : Char} (h : c ∈ pointed places) :
    c = '.' ∨ c ∈ places := by
  rw [pointed] at h
  split at h
  · cases h
  · exact List.mem_cons.1 h

theorem readUnsigned?_pointed {whole places : List Char}
    (hdigits : ∀ c ∈ whole ++ places, c.isDigit = true) (hwhole : whole ≠ []) (negative : Bool) :
    readUnsigned? negative (whole ++ pointed places) =
      some (ofDecimal negative (Nat.ofDigitChars 10 (whole ++ places) 0) (-places.length)) := by
  have hdw (c : Char) (hc : c ∈ whole) : c.isDigit = true := hdigits c (List.mem_append_left _ hc)
  have hdp (c : Char) (hc : c ∈ places) : c.isDigit = true := hdigits c (List.mem_append_right _ hc)
  have htake : (whole ++ pointed places).takeWhile Char.isDigit = whole := by
    rw [List.takeWhile_append_of_pos hdw, pointed]
    split
    · simp
    · rw [List.takeWhile_cons_of_neg (by decide), List.append_nil]
  have hdrop : (whole ++ pointed places).dropWhile Char.isDigit = pointed places := by
    rw [List.dropWhile_append_of_pos hdw, pointed]
    split
    · rfl
    · rw [List.dropWhile_cons_of_neg (by decide)]
  rw [readUnsigned?]
  simp only [htake, hdrop, digitsValue_eq, ← Nat.ofDigitChars_append]
  rw [pointed]
  by_cases hp : places = []
  · subst hp
    rw [if_pos rfl]
    simp [hwhole, readExponent?]
  · rw [if_neg hp]
    simp [List.takeWhile_eq_self_iff.2 hdp, List.dropWhile_eq_nil_iff.2 hdp, hwhole, readExponent?]

theorem toLower_of_isDigit {c : Char} (h : c.isDigit = true) : c.toLower = c := by
  simp only [Char.isDigit, Bool.and_eq_true, decide_eq_true_eq] at h
  have hupper : ¬ (c.val ≥ 'A'.val ∧ c.val ≤ 'Z'.val) := fun hcase => by
    have h2 := UInt32.le_iff_toNat_le.1 h.2
    have h3 := UInt32.le_iff_toNat_le.1 hcase.1
    exact absurd (Nat.le_trans h3 h2) (by decide)
  exact dif_neg hupper

/-- Digits are read as a number, with a sign in front or without. -/
theorem read_pointed {whole places : List Char}
    (hdigits : ∀ c ∈ whole ++ places, c.isDigit = true) (hwhole : whole ≠ []) (negative : Bool) :
    read (String.ofList ((if negative then ['-'] else []) ++ whole ++ pointed places)) =
      .ok (ofDecimal negative (Nat.ofDigitChars 10 (whole ++ places) 0) (-places.length)) := by
  obtain ⟨d, ds, rfl⟩ := List.exists_cons_of_ne_nil hwhole
  have hd : d.isDigit = true := hdigits d (.head _)
  have hnumber := readUnsigned?_pointed hdigits hwhole negative
  have hother (c : Char) (hc : c.isDigit = false) : d ≠ c := by
    rintro rfl
    rw [hd] at hc
    cases hc
  have hsplit : splitSign ((if negative then ['-'] else []) ++ d :: ds ++ pointed places) =
      (negative, d :: ds ++ pointed places) := by
    cases negative with
    | true => rfl
    | false =>
      rw [if_neg Bool.false_ne_true, List.nil_append, List.cons_append, splitSign]
      · exact fun cs h => hother '-' rfl (List.cons.inj h).1
      · exact fun cs h => hother '+' rfl (List.cons.inj h).1
  have hname (name : List Char) (c : Char) (hc : c.isDigit = false) :
      ((d :: ds ++ pointed places).map Char.toLower == c :: name) = false := by
    refine beq_false_of_ne fun h => hother c hc ?_
    rw [← toLower_of_isDigit hd]
    exact (List.cons.inj h).1
  have hempty : (String.ofList ((if negative then ['-'] else []) ++ d :: ds ++ pointed places)).isEmpty =
      false := by
    rw [Bool.eq_false_iff, Ne, String.isEmpty_iff, String.ofList_eq_empty_iff]
    simp
  have hinf : "inf".toList = ['i', 'n', 'f'] := rfl
  have hinfinity : "infinity".toList = ['i', 'n', 'f', 'i', 'n', 'i', 't', 'y'] := rfl
  have hnan : "nan".toList = ['n', 'a', 'n'] := rfl
  rw [read, hempty, String.toList_ofList, hsplit, hinf, hinfinity, hnan]
  dsimp only
  rw [hname _ _ rfl, hname _ _ rfl, hname _ _ rfl, hnumber]
  rfl

/-! ## The text of a number -/

theorem exists_positional (d : Nat) (p : Int) : ∃ whole places : List Char,
    (∀ c ∈ whole ++ places, c.isDigit = true) ∧ whole ≠ [] ∧
      positional d p = whole ++ pointed places ∧
      (Nat.ofDigitChars 10 (whole ++ places) 0 : ℚ) * 10 ^ (-places.length : Int) = d * 10 ^ p := by
  have hdigit (c : Char) (hc : c ∈ Nat.toDigits 10 d) : c.isDigit = true :=
    Nat.isDigit_of_mem_toDigits (by decide) (by decide) hc
  rw [positional]
  by_cases hp : 0 ≤ p
  · refine ⟨Nat.toDigits 10 d ++ List.replicate p.toNat '0', [], ?_, ?_, ?_, ?_⟩
    · intro c hc
      rw [List.append_nil, List.mem_append] at hc
      rcases hc with hc | hc
      · exact hdigit c hc
      · rw [(List.mem_replicate.1 hc).2]
        rfl
    · simp
    · rw [if_pos hp, pointed, if_pos rfl, List.append_nil]
    · rw [List.append_nil, Nat.ofDigitChars_append, Nat.ofDigitChars_ten_toDigits,
        Nat.ofDigitChars_replicate_zero, List.length_nil, Nat.cast_zero, neg_zero, zpow_zero, mul_one,
        Nat.cast_mul, mul_comm]
      congr 1
      exact cast_pow_toNat 10 hp
  · rw [if_neg hp]
    obtain ⟨hdigits, hwhole, hplaces, hvalue⟩ := padded_parts (-p).toNat d
    refine ⟨_, _, hdigits, hwhole, ?_, ?_⟩
    · rw [pointed, if_neg]
      · rfl
      · intro h
        rw [h, List.length_nil] at hplaces
        omega
    · rw [hvalue, hplaces, Int.toNat_of_nonneg (by omega), neg_neg]

variable {x : Binary64}

/-- A decimal that rounds to a finite number above zero is read as that number. -/
theorem ofDecimal_eq (hzero : x.magnitude ≠ 0) (hlt : x.magnitude < infinityMagnitude) {d : Nat}
    {p : Int} (h : Rounds x.decompose.1 x.decompose.2 (d * 10 ^ p)) :
    ofDecimal x.isNegative d p = x := by
  obtain ⟨hm, hmagnitude⟩ := isFinite_decompose hzero hlt
  rw [ofDecimal_of_rounds hm h, hmagnitude, ofMagnitude_magnitude]

theorem isSmallInteger_spec (h : x.isSmallInteger = true) :
    (x.integerPart : ℚ) = x.decompose.1 * 2 ^ x.decompose.2 := by
  rw [isSmallInteger] at h
  rw [integerPart]
  generalize x.decompose = parts at *
  obtain ⟨m, e⟩ := parts
  dsimp only at h ⊢
  by_cases he : 0 ≤ e
  · rw [if_pos he, Nat.cast_mul, cast_pow_toNat 2 he]
    rfl
  · rw [if_neg he]
    split at h
    · cases h
    have hmod := beq_iff_eq.1 (Bool.and_eq_true_iff.1 h).1
    have hpow := cast_pow_neg_toNat 2 he
    generalize Nat.pow 2 (-e).toNat = unit at *
    have hne : (unit : ℚ) ≠ 0 := by
      rw [hpow]
      exact inv_ne_zero (zpow_ne_zero e (by norm_num))
    rw [← div_inv_eq_mul, ← Nat.cast_ofNat, ← hpow]
    refine eq_div_of_mul_eq hne ?_
    exact_mod_cast Nat.div_mul_cancel (Nat.dvd_of_mod_eq_zero hmod)

theorem decompose_of_zero (h : x.magnitude = 0) : x.decompose = (0, -1074) := by
  rw [decompose, h]
  rfl

theorem isSmallInteger_of_zero (h : x.magnitude = 0) : x.isSmallInteger = true := by
  have hnan : x.isNaN = false := by rw [isNaN, h]; rfl
  have hinf : x.isInfinite = false := by rw [isInfinite, h]; rfl
  rw [isSmallInteger, hnan, hinf, decompose_of_zero h]
  dsimp only
  rw [Nat.zero_mod, Nat.zero_div]
  rfl

/-- A small integer is read from its digits and one place, which is zero. -/
theorem ofDecimal_integerPart (hlt : x.magnitude < infinityMagnitude)
    (hsmall : x.isSmallInteger = true) :
    ofDecimal x.isNegative (x.integerPart * 10) (-1) = x := by
  have hvalue := isSmallInteger_spec hsmall
  by_cases hzero : x.magnitude = 0
  · rw [decompose_of_zero hzero, Nat.cast_zero, zero_mul] at hvalue
    have hpart : x.integerPart = 0 := by exact_mod_cast hvalue
    rw [hpart, ofDecimal, if_pos rfl, ← hzero, ofMagnitude_magnitude]
  · refine ofDecimal_eq hzero hlt ?_
    have hshift : ((x.integerPart * 10 : Nat) : ℚ) * 10 ^ (-1 : Int) =
        x.decompose.1 * 2 ^ x.decompose.2 := by
      rw [← hvalue, Nat.cast_mul, zpow_neg_one, Nat.cast_ofNat]
      exact mul_inv_cancel_right₀ (by norm_num) _
    rw [hshift]
    exact rounds_self _ _

/-- The text of a finite number: a sign, digits and places. -/
theorem exists_parts (hlt : x.magnitude < infinityMagnitude) : ∃ whole places : List Char,
    (∀ c ∈ whole ++ places, c.isDigit = true) ∧ whole ≠ [] ∧
      x.text = String.ofList ((if x.isNegative then ['-'] else []) ++ whole ++ pointed places) ∧
      ofDecimal x.isNegative (Nat.ofDigitChars 10 (whole ++ places) 0) (-places.length) = x := by
  have hnan : x.isNaN = false := decide_eq_false (Nat.not_lt.2 hlt.le)
  have hinf : x.isInfinite = false := beq_false_of_ne hlt.ne
  have htext {body whole places : List Char} (h : body = whole ++ pointed places) :
      String.ofList (if x.isNegative then '-' :: body else body) =
        String.ofList ((if x.isNegative then ['-'] else []) ++ whole ++ pointed places) := by
    rw [h]
    cases x.isNegative <;> rfl
  rw [text, hnan, hinf, if_neg Bool.false_ne_true]
  dsimp only
  rw [if_neg Bool.false_ne_true]
  by_cases hsmall : x.isSmallInteger = true
  · rw [if_pos hsmall]
    refine ⟨Nat.toDigits 10 x.integerPart, ['0'], ?_, Nat.toDigits_ne_nil, htext rfl, ?_⟩
    · intro c hc
      rcases List.mem_append.1 hc with hc | hc
      · exact Nat.isDigit_of_mem_toDigits (b := 10) (by decide) (by decide) hc
      · rw [List.mem_singleton.1 hc]
        rfl
    · have hvalue : Nat.ofDigitChars 10 (Nat.toDigits 10 x.integerPart ++ ['0']) 0 =
          x.integerPart * 10 := by
        rw [Nat.ofDigitChars_append, Nat.ofDigitChars_ten_toDigits, ofDigitChars_cons_mul]
        rfl
      rw [hvalue]
      exact ofDecimal_integerPart hlt hsmall
  · rw [if_neg hsmall]
    have hzero : x.magnitude ≠ 0 := mt isSmallInteger_of_zero hsmall
    have hm := (isFinite_decompose hzero hlt).1
    let short := shortest x.decompose.1 x.decompose.2
    let stripped := dropTrailingZeros 17 short.1 short.2
    obtain ⟨whole, places, hdigits, hwhole, hbody, hvalue⟩ :=
      exists_positional stripped.1 stripped.2
    refine ⟨whole, places, hdigits, hwhole, htext hbody, ofDecimal_eq hzero hlt ?_⟩
    rw [hvalue, dropTrailingZeros_spec]
    exact rounds_shortest hm

theorem text_of_isNaN (h : x.isNaN = true) : x.text = "nan" := if_pos h

theorem text_of_isInfinite (h : x.magnitude = infinityMagnitude) :
    x.text = if x.isNegative then "-inf" else "inf" := by
  have hnan : ¬ x.isNaN = true := fun hnan => absurd (of_decide_eq_true hnan) (by omega)
  have hinf : x.isInfinite = true := beq_iff_eq.2 h
  rw [text, if_neg hnan]
  dsimp only
  rw [if_pos hinf]
  cases x.isNegative <;> rfl

theorem kinds (x : Binary64) : x.isNaN = true ∨ x.isNaN = false ∧
    (x.magnitude = infinityMagnitude ∨ x.magnitude < infinityMagnitude) := by
  rw [isNaN, decide_eq_true_iff, decide_eq_false_iff_not]
  omega

/-- A number as it is read from its text: a NaN is only known to be one. -/
def asRead (x : Binary64) : Binary64 := if x.isNaN then nan false else x

/-- The text of a number reads back as the number. -/
theorem read_text (x : Binary64) : read x.text = .ok (asRead x) := by
  rw [asRead]
  rcases kinds x with hnan | ⟨hnan, heq | hlt⟩
  · rw [text_of_isNaN hnan, if_pos hnan]
    rfl
  · have hx := ofMagnitude_magnitude x
    rw [heq] at hx
    rw [text_of_isInfinite heq, hnan, if_neg Bool.false_ne_true]
    cases hn : x.isNegative with
    | true =>
      rw [hn] at hx
      exact congrArg Except.ok hx
    | false =>
      rw [hn] at hx
      exact congrArg Except.ok hx
  · obtain ⟨whole, places, hdigits, hwhole, htext, hvalue⟩ := exists_parts hlt
    rw [htext, read_pointed hdigits hwhole, hvalue, hnan, if_neg Bool.false_ne_true]

theorem text_asRead (x : Binary64) : (asRead x).text = x.text := by
  rw [asRead]
  split
  · rename_i h
    rw [text_of_isNaN h]
    rfl
  · rfl

theorem asRead_eq_iff (x y : Binary64) :
    asRead x = asRead y ↔ x = y ∨ x.isNaN = true ∧ y.isNaN = true := by
  have hnan : (nan false).isNaN = true := rfl
  rw [asRead, asRead]
  split <;> split <;> rename_i hx hy
  · exact iff_of_true rfl (.inr ⟨hx, hy⟩)
  · refine iff_of_false (fun h => ?_) (by rintro (rfl | h) <;> simp_all)
    rw [← h] at hy
    exact hy hnan
  · refine iff_of_false (fun h => ?_) (by rintro (rfl | h) <;> simp_all)
    rw [h] at hx
    exact hx hnan
  · simp [hx]

/-- Two numbers have one text just if they are the same or both of them are NaNs. -/
theorem text_inj (x y : Binary64) : x.text = y.text ↔ x = y ∨ x.isNaN = true ∧ y.isNaN = true := by
  rw [← asRead_eq_iff]
  constructor
  · intro h
    have hread := read_text x
    rw [h, read_text] at hread
    exact (Except.ok.inj hread).symm
  · intro h
    rw [← text_asRead, h, text_asRead]

theorem trim_text (x : Binary64) : Text.trim x.text = x.text := by
  rcases kinds x with hnan | ⟨-, heq | hlt⟩
  · rw [text_of_isNaN hnan]
    rfl
  · rw [text_of_isInfinite heq]
    cases x.isNegative <;> rfl
  · obtain ⟨whole, places, hdigits, -, htext, -⟩ := exists_parts hlt
    rw [htext]
    refine Text.trim_of_forall fun c hc => ?_
    have hkind : c.isDigit = true ∨ c = '-' ∨ c = '.' := by
      rw [List.mem_append, List.mem_append] at hc
      rcases hc with (hc | hc) | hc
      · cases hneg : x.isNegative <;> simp [hneg] at hc
        exact .inr (.inl hc)
      · exact .inl (hdigits c (List.mem_append_left _ hc))
      · rcases mem_pointed hc with rfl | hc
        · exact .inr (.inr rfl)
        · exact .inl (hdigits c (List.mem_append_right _ hc))
    rcases hkind with h | rfl | rfl
    · exact Text.isSpace_of_isDigit h
    · rfl
    · rfl

end ContentSchema.Binary64
