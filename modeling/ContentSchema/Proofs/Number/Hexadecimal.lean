import ContentSchema.Proofs.Number.Numerals
import Mathlib.Data.List.Basic
import Mathlib.Data.Nat.Digits.Defs

/-!
# Hexadecimal numerals

The digits are a table, in which each stands at the place of its number (`hexDigits`), and a numeral
names the number that its digits give in base sixteen (`hexNumber`). Either case is fine.

Reading agrees with this: a numeral is read if it has digits only, as the number that it names
(`readDigits_hex_iff`). For unsigned 32-bit integers a plus sign may stand in front of the digits
(`readWord32_hex_iff`).
-/
namespace ContentSchema

/-! ## Digits -/

/-- The hexadecimal digits, each at the place of its number. -/
def hexDigits : List Char :=
  ['0', '1', '2', '3', '4', '5', '6', '7', '8', '9', 'a', 'b', 'c', 'd', 'e', 'f']

/-- The number that hexadecimal digits name, in either case. -/
def hexNumber (digits : List Char) : Nat :=
  Nat.ofDigits 16 (digits.reverse.map fun d => hexDigits.idxOf d.toLower)

theorem hexNumber_cons (d : Char) (ds : List Char) :
    hexNumber (d :: ds) = hexDigits.idxOf d.toLower * 16 ^ ds.length + hexNumber ds := by
  simp [hexNumber, Nat.ofDigits_append, Nat.mul_comm, Nat.add_comm]

theorem toNat_lt_of_hexDigit {c : Char} (h : c.toLower ∈ hexDigits) : c.toNat < 128 := by
  by_contra hc
  have hupper : ¬ (c.val ≥ 'A'.val ∧ c.val ≤ 'Z'.val) := fun hcase =>
    hc (Nat.lt_of_le_of_lt (UInt32.le_iff_toNat_le.1 hcase.2) (by decide))
  have hascii : ∀ d ∈ hexDigits, d.toNat < 128 := by
    rw [← List.forall_iff_forall_mem]
    decide
  have hlower : c.toLower = c := dif_neg hupper
  rw [hlower] at h
  exact hc (hascii c h)

theorem digitValue?_hex (c : Char) :
    digitValue? 16 c =
      if c.toLower ∈ hexDigits then some (hexDigits.idxOf c.toLower) else none := by
  have key : ∀ n < 128, digitValue? 16 (Char.ofNat n) =
      if (Char.ofNat n).toLower ∈ hexDigits then some (hexDigits.idxOf (Char.ofNat n).toLower)
      else none := by decide
  by_cases hc : c.toNat < 128
  · have hascii := key c.toNat hc
    rwa [Char.ofNat_toNat] at hascii
  · rw [if_neg fun h => hc (toNat_lt_of_hexDigit h)]
    simp only [digitValue?]
    rw [if_neg (by omega), if_neg (by omega), if_neg (by omega)]
    rfl

/-! ## Numerals -/

/-- What is read of hexadecimal digits that continue a number. -/
theorem readDigits_hex_iff {limit n acc : Nat} {beyond : IntegerError} {ds : List Char}
    (hn : n ≤ limit) : readDigits 16 limit beyond acc ds = .ok n ↔
      (∀ d ∈ ds, d.toLower ∈ hexDigits) ∧ acc * 16 ^ ds.length + hexNumber ds = n := by
  induction ds generalizing acc with
  | nil => simp [readDigits, hexNumber]
  | cons d ds ih =>
    rw [readDigits, digitValue?_hex, hexNumber_cons, List.length_cons, Nat.pow_succ]
    by_cases hd : d.toLower ∈ hexDigits
    · rw [if_pos hd]
      dsimp only
      generalize hexDigits.idxOf d.toLower = k
      have hsplit : (acc * 16 + k) * 16 ^ ds.length + hexNumber ds =
          acc * (16 ^ ds.length * 16) + (k * 16 ^ ds.length + hexNumber ds) := by
        rw [Nat.add_mul, Nat.mul_assoc, Nat.mul_comm 16, Nat.add_assoc]
      -- further digits do not make the number smaller
      have hgrows : acc * 16 + k ≤ (acc * 16 + k) * 16 ^ ds.length :=
        Nat.le_mul_of_pos_right _ (Nat.pow_pos (by decide))
      split
      · refine iff_of_false (fun h => by cases h) fun h => ?_
        omega
      · rw [ih, List.forall_mem_cons, hsplit, and_iff_right hd]
    · rw [if_neg hd]
      exact iff_of_false (fun h => by cases h) fun h => hd (h.1 d (.head _))

/-- The digits of a number are hexadecimal ones, and so are zeros in front of them. -/
theorem hexDigit_of_mem_paddedDigits {width n : Nat} {d : Char}
    (h : d ∈ paddedDigits 16 width n) : d.toLower ∈ hexDigits := by
  have hread : readDigits 16 n .tooLarge 0 (paddedDigits 16 width n) = .ok n :=
    readDigits_paddedDigits (by decide) (by decide) width n.le_refl
  exact ((readDigits_hex_iff n.le_refl).1 hread).1 d h

/-- An unsigned integer has digits, and may have a plus sign in front of them. -/
theorem readWord32_hex_iff {ds : List Char} {n : Nat} (hn : n < word32Bound) :
    readWord32 16 ds = .ok n ↔ ∃ ds', ds' ≠ [] ∧ (ds = ds' ∨ ds = '+' :: ds') ∧
      (∀ d ∈ ds', d.toLower ∈ hexDigits) ∧ hexNumber ds' = n := by
  have hread (cs : List Char) : readDigits 16 (word32Bound - 1) .tooLarge 0 cs = .ok n ↔
      (∀ d ∈ cs, d.toLower ∈ hexDigits) ∧ hexNumber cs = n := by
    rw [readDigits_hex_iff (Nat.le_sub_one_of_lt hn), Nat.zero_mul, Nat.zero_add]
  have hplus : '+'.toLower ∉ hexDigits := by decide
  have hminus : '-'.toLower ∉ hexDigits := by decide
  unfold readWord32
  split
  · refine iff_of_false nofun ?_
    rintro ⟨ds', hne, rfl | h, -⟩
    · exact hne rfl
    · cases h
  · refine iff_of_false nofun ?_
    rintro ⟨ds', hne, rfl | h, hdigits, -⟩
    · exact hplus (hdigits _ (.head _))
    · cases h
      exact hne rfl
  · refine iff_of_false nofun ?_
    rintro ⟨ds', hne, rfl | h, hdigits, -⟩
    · exact hminus (hdigits _ (.head _))
    · cases h
  · rename_i cs hne
    rw [hread]
    constructor
    · intro h
      exact ⟨cs, fun hnil => hne hnil, .inr rfl, h⟩
    · rintro ⟨ds', hne, rfl | h, hdigits, hnumber⟩
      · exact absurd (hdigits _ (.head _)) hplus
      · cases h
        exact ⟨hdigits, hnumber⟩
  · rename_i hnil _ _ hunsigned
    rw [hread]
    constructor
    · intro h
      exact ⟨ds, fun h => hnil h, .inl rfl, h⟩
    · rintro ⟨ds', hne, rfl | h, hdigits, hnumber⟩
      · exact ⟨hdigits, hnumber⟩
      · exact absurd h (hunsigned _)

end ContentSchema
