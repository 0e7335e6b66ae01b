import ContentSchema.Number.Integer
import Mathlib.Algebra.Group.Nat.Defs

/-!
# Numerals read back

What `readDigits` makes of the digits that `Nat.toDigits` gives, with zeros in front or without, in
any radix up to sixteen. From it the text of a 64-bit integer reads back as that integer
(`readInt64_int64Text`), and so do padded digits in 32 bits (`readWord32_paddedDigits`).
-/
namespace ContentSchema

/-! ## Digits -/

theorem toNat_digitChar_of_lt {d : Nat} (hd : d < 16) :
    (Nat.digitChar d).toNat = if d < 10 then 48 + d else 87 + d := by
  have key : ∀ e < 16, (Nat.digitChar e).toNat = if e < 10 then 48 + e else 87 + e := by decide
  exact key d hd

theorem digitValue?_digitChar {radix d : Nat} (hr : radix ≤ 16) (hd : d < radix) :
    digitValue? radix (Nat.digitChar d) = some d := by
  have hn := toNat_digitChar_of_lt (show d < 16 by omega)
  simp only [digitValue?, hn]
  by_cases h : d < 10
  · rw [if_pos h, if_pos (by omega), Nat.add_sub_cancel_left]
    simp [Option.filter, hd]
  · rw [if_neg h, if_neg (by omega), if_pos (by omega), Nat.add_sub_cancel_left]
    simp [Option.filter, hd]

variable {radix limit : Nat} {beyond : IntegerError}

theorem readDigits_append (acc : Nat) (cs ds : List Char) :
    readDigits radix limit beyond acc (cs ++ ds) =
      (readDigits radix limit beyond acc cs).bind fun n => readDigits radix limit beyond n ds := by
  induction cs generalizing acc with
  | nil => rfl
  | cons c cs ih =>
    simp only [List.cons_append, readDigits]
    split
    · rfl
    · split
      · rfl
      · exact ih _

theorem readDigits_digitChar {acc d : Nat} (hr : radix ≤ 16) (hd : d < radix)
    (hl : acc * radix + d ≤ limit) :
    readDigits radix limit beyond acc [Nat.digitChar d] = .ok (acc * radix + d) := by
  simp only [readDigits, digitValue?_digitChar hr hd]
  rw [if_neg (by omega)]

/-- Digits continue the number in front of them. -/
theorem readDigits_toDigits (h1 : 1 < radix) (hr : radix ≤ 16) (acc n : Nat)
    (hl : acc * radix ^ (Nat.toDigits radix n).length + n ≤ limit) :
    readDigits radix limit beyond acc (Nat.toDigits radix n) =
      .ok (acc * radix ^ (Nat.toDigits radix n).length + n) := by
  induction n using Nat.strongRecOn with
  | ind n ih =>
    rw [Nat.toDigits_eq_if h1] at hl ⊢
    by_cases hn : n < radix
    · rw [if_pos hn] at hl ⊢
      simp only [List.length_singleton, Nat.pow_one] at hl ⊢
      exact readDigits_digitChar hr hn hl
    · rw [if_neg hn] at hl ⊢
      have hlt : n / radix < n := Nat.div_lt_self (by omega) h1
      have hmod : n % radix < radix := Nat.mod_lt _ (by omega)
      have hdm := Nat.div_add_mod n radix
      simp only [List.length_append, List.length_singleton, Nat.pow_succ] at hl ⊢
      generalize hk : radix ^ (Nat.toDigits radix (n / radix)).length = k at hl ⊢
      have hval : (acc * k + n / radix) * radix + n % radix = acc * (k * radix) + n := by
        rw [Nat.add_mul, Nat.mul_assoc, Nat.mul_comm (n / radix)]
        omega
      have hle : acc * k + n / radix ≤ (acc * k + n / radix) * radix :=
        Nat.le_mul_of_pos_right _ (by omega)
      have hhead := ih (n / radix) hlt (by rw [hk]; omega)
      rw [hk] at hhead
      rw [readDigits_append, hhead]
      simp only [Except.bind]
      rw [readDigits_digitChar hr hmod (by omega), hval]

theorem readDigits_replicate_zero (h1 : 1 < radix) (k : Nat) (cs : List Char) :
    readDigits radix limit beyond 0 (List.replicate k '0' ++ cs) =
      readDigits radix limit beyond 0 cs := by
  induction k with
  | zero => rfl
  | succ k ih =>
    have hz : digitValue? radix '0' = some 0 := by
      simp [digitValue?, Option.filter]
      omega
    simp only [List.replicate_succ, List.cons_append, readDigits, hz]
    simpa using ih

/-- Zeros in front of a numeral do not count. -/
theorem readDigits_paddedDigits (h1 : 1 < radix) (hr : radix ≤ 16) {n : Nat} (width : Nat)
    (hl : n ≤ limit) :
    readDigits radix limit beyond 0 (paddedDigits radix width n) = .ok n := by
  simp only [paddedDigits]
  rw [readDigits_replicate_zero h1, readDigits_toDigits h1 hr 0 n (by simpa using hl)]
  simp

theorem paddedDigits_ne_nil (radix width n : Nat) : paddedDigits radix width n ≠ [] := by
  simp [paddedDigits]

theorem length_paddedDigits (h1 : 1 < radix) {width n : Nat} (hw : 0 < width)
    (hn : n < radix ^ width) : (paddedDigits radix width n).length = width := by
  have := (Nat.length_toDigits_le_iff h1 hw).2 hn
  simp only [paddedDigits, List.length_append, List.length_replicate]
  omega

/-- A numeral of one digit more than its width is not padded. -/
theorem length_paddedDigits_succ (h1 : 1 < radix) {width n : Nat} (hw : 0 < width)
    (hl : radix ^ width ≤ n) (hn : n < radix ^ (width + 1)) :
    (paddedDigits radix width n).length = width + 1 := by
  have hle := (Nat.length_toDigits_le_iff h1 (Nat.succ_pos width)).2 hn
  have hgt := mt (Nat.length_toDigits_le_iff h1 hw).1 (Nat.not_lt.2 hl)
  simp only [paddedDigits, List.length_append, List.length_replicate]
  omega

/-! ## Signs -/

/-- A numeral begins with a digit, which is no sign. -/
theorem exists_cons_toDigits (n : Nat) :
    ∃ d ds, Nat.toDigits 10 n = d :: ds ∧ d.isDigit = true ∧ d ≠ '+' ∧ d ≠ '-' := by
  obtain ⟨d, ds, h⟩ := List.exists_cons_of_ne_nil (Nat.toDigits_ne_nil (n := n) (b := 10))
  have hd : d.isDigit = true :=
    Nat.isDigit_of_mem_toDigits (b := 10) (by decide) (by decide) (by rw [h]; exact .head _)
  refine ⟨d, ds, h, hd, ?_, ?_⟩ <;> rintro rfl <;> exact absurd hd (by decide)

theorem readInt64_unsigned {s : String} {d : Char} {ds : List Char} (h : s.toList = d :: ds)
    (hplus : d ≠ '+') (hminus : d ≠ '-') :
    readInt64 s = (readDigits 10 (int64Bound - 1) .tooLarge 0 (d :: ds)).map
      fun (n : Nat) => Int64.ofInt n := by
  unfold readInt64
  rw [h]
  split
  case h_6 =>
    cases readDigits 10 (int64Bound - 1) .tooLarge 0 (d :: ds) <;> rfl
  all_goals simp_all

/-- The text of an integer reads back as the integer. -/
theorem readInt64_int64Text (n : Int64) : readInt64 (int64Text n) = .ok n := by
  obtain ⟨d, ds, h, -, hplus, hminus⟩ := exists_cons_toDigits n.toInt.natAbs
  have hmin := n.le_toInt
  have hmax := n.toInt_lt
  by_cases hneg : n.toInt < 0
  · have hr : readDigits 10 int64Bound .tooSmall 0 (Nat.toDigits 10 n.toInt.natAbs) = .ok _ :=
      readDigits_toDigits (by decide) (by decide) 0 n.toInt.natAbs (by simp only [int64Bound]; omega)
    rw [h] at hr
    simp only [readInt64, int64Text, String.toList_ofList, if_pos hneg, h, hr, bind, Except.bind,
      pure, Except.pure, Nat.zero_mul, Nat.zero_add]
    rw [show -((n.toInt.natAbs : Nat) : Int) = n.toInt by omega, Int64.ofInt_toInt]
  · have hr : readDigits 10 (int64Bound - 1) .tooLarge 0 (Nat.toDigits 10 n.toInt.natAbs) =
        .ok _ := readDigits_toDigits (by decide) (by decide) 0 n.toInt.natAbs (by simp only [int64Bound]; omega)
    have hs : (int64Text n).toList = d :: ds := by
      simp only [int64Text, String.toList_ofList, if_neg hneg, h]
    rw [h] at hr
    rw [readInt64_unsigned hs hplus hminus, hr]
    simp only [Except.map, Nat.zero_mul, Nat.zero_add]
    rw [show ((n.toInt.natAbs : Nat) : Int) = n.toInt by omega, Int64.ofInt_toInt]

theorem readWord32_unsigned {d : Char} {ds : List Char} (hplus : d ≠ '+') (hminus : d ≠ '-') :
    readWord32 radix (d :: ds) = readDigits radix (word32Bound - 1) .tooLarge 0 (d :: ds) := by
  unfold readWord32
  split
  case h_5 => rfl
  all_goals simp_all

/-- Padded digits read back as an unsigned 32-bit integer. -/
theorem readWord32_paddedDigits (h1 : 1 < radix) (hr : radix ≤ 16) {n : Nat} (width : Nat)
    (hn : n < word32Bound) : readWord32 radix (paddedDigits radix width n) = .ok n := by
  have hread : readDigits radix (word32Bound - 1) .tooLarge 0 (paddedDigits radix width n) =
      .ok n := readDigits_paddedDigits h1 hr width (by omega)
  obtain ⟨d, ds, h⟩ := List.exists_cons_of_ne_nil (paddedDigits_ne_nil radix width n)
  rw [h] at hread ⊢
  have hsign (c : Char) (hc : digitValue? radix c = none) : d ≠ c := by
    rintro rfl
    simp only [readDigits, hc] at hread
    cases hread
  rw [readWord32_unsigned (hsign _ (by simp [digitValue?, Option.filter]))
    (hsign _ (by simp [digitValue?, Option.filter])), hread]

end ContentSchema
