import ContentSchema.Number.Decimal.Reader
import ContentSchema.Proofs.Number.Numerals
import ContentSchema.Proofs.Text.Space

/-!
# Decimals read back

The text of a decimal shows every place of its scale, so it reads back as the same coefficient and
the same scale (`Decimal.read_text`).
-/
namespace ContentSchema

/-! ## Digits -/

theorem le_ofDigitChars (cs : List Char) (n : Nat) : n ≤ Nat.ofDigitChars 10 cs n := by
  rw [Nat.ofDigitChars_eq_ofDigitChars_zero]
  have : n ≤ 10 ^ cs.length * n := Nat.le_mul_of_pos_left n (Nat.pow_pos (by decide))
  omega

theorem ofDigitChars_cons_mul (c : Char) (cs : List Char) (n : Nat) :
    Nat.ofDigitChars 10 (c :: cs) n = Nat.ofDigitChars 10 cs (n * 10 + (c.toNat - 48)) := by
  rw [Nat.ofDigitChars_cons, Nat.mul_comm]
  rfl

theorem ofDigitChars_replicate_append (k n : Nat) :
    Nat.ofDigitChars 10 (List.replicate k '0' ++ Nat.toDigits 10 n) 0 = n := by
  rw [Nat.ofDigitChars_append, Nat.ofDigitChars_replicate_zero, Nat.mul_zero,
    Nat.ofDigitChars_ten_toDigits]

theorem isDigit_of_mem_replicate_append {k n : Nat} {c : Char}
    (h : c ∈ List.replicate k '0' ++ Nat.toDigits 10 n) : c.isDigit = true := by
  rcases List.mem_append.1 h with h | h
  · rw [(List.mem_replicate.1 h).2]
    rfl
  · exact Nat.isDigit_of_mem_toDigits (b := 10) (by decide) (by decide) h

/-- The digits of a number with zeros in front, more than `k` of them. -/
def padded (k n : Nat) : List Char :=
  List.replicate (k + 1 - (Nat.toDigits 10 n).length) '0' ++ Nat.toDigits 10 n

/-- A point in front of the last `k` digits has digits on both sides, which are those of the number. -/
theorem padded_parts (k n : Nat) :
    let whole := (padded k n).take ((padded k n).length - k)
    let places := (padded k n).drop ((padded k n).length - k)
    (∀ c ∈ whole ++ places, c.isDigit = true) ∧ whole ≠ [] ∧ places.length = k ∧
      Nat.ofDigitChars 10 (whole ++ places) 0 = n := by
  intro whole places
  have hlen : k + 1 ≤ (padded k n).length := by
    simp only [padded, List.length_append, List.length_replicate]
    omega
  have hsplit : whole ++ places = padded k n := List.take_append_drop ..
  rw [hsplit]
  refine ⟨fun c hc => isDigit_of_mem_replicate_append hc, fun h => ?_, ?_,
    ofDigitChars_replicate_append _ _⟩
  · have hnone := congrArg List.length h
    rw [List.length_take, List.length_nil] at hnone
    omega
  · rw [List.length_drop]
    omega

namespace Decimal

/-! ## Reading digits -/

/-- Digits in front of the point. -/
theorem Progress.read_whole (ds rest : List Char) (hd : ∀ c ∈ ds, c.isDigit = true) (p : Progress)
    (hp : p.hasPoint = false) (hs : p.scale = 0) (hne : p.hasDigits = true ∨ ds ≠ [])
    (hl : Nat.ofDigitChars 10 ds p.coefficient < coefficientBound) :
    p.read (ds ++ rest) = Progress.read
      { p with coefficient := Nat.ofDigitChars 10 ds p.coefficient, hasDigits := true } rest := by
  induction ds generalizing p with
  | nil =>
    have hd : p.hasDigits = true := hne.resolve_right (fun h => h rfl)
    rw [Nat.ofDigitChars_nil, List.nil_append, ← hd]
  | cons c ds ih =>
    rw [ofDigitChars_cons_mul] at hl ⊢
    have hc : c.isDigit = true := hd c (.head _)
    have hlt : p.coefficient * 10 + (c.toNat - 48) < coefficientBound :=
      Nat.lt_of_le_of_lt (le_ofDigitChars ds _) hl
    rw [List.cons_append, Progress.read]
    simp only [hp, hc, hlt, Bool.false_and, Bool.false_eq_true, if_false, if_true]
    rw [ih (fun d h => hd d (.tail _ h)) _ rfl rfl (.inl rfl) hl]
    rw [← hs, ← hp]

/-- Digits behind the point, which are the last ones. -/
theorem Progress.read_places (ds : List Char) (hd : ∀ c ∈ ds, c.isDigit = true) (p : Progress)
    (hp : p.hasPoint = true) (hh : p.hasDigits = true) (hs : p.scale + ds.length ≤ maxScale)
    (hl : Nat.ofDigitChars 10 ds p.coefficient < coefficientBound) :
    p.read ds = Progress.finish
      { p with
        coefficient := Nat.ofDigitChars 10 ds p.coefficient, scale := p.scale + ds.length } := by
  induction ds generalizing p with
  | nil => rw [Progress.read]; rfl
  | cons c ds ih =>
    rw [ofDigitChars_cons_mul] at hl ⊢
    rw [List.length_cons] at hs ⊢
    have hc : c.isDigit = true := hd c (.head _)
    have hlt : p.coefficient * 10 + (c.toNat - 48) < coefficientBound :=
      Nat.lt_of_le_of_lt (le_ofDigitChars ds _) hl
    have hroom : ¬ maxScale ≤ p.scale := by omega
    rw [Progress.read]
    simp only [hp, hh, hc, hlt, hroom, Bool.true_and, decide_false, Bool.false_eq_true, if_false,
      if_true]
    rw [ih (fun d h => hd d (.tail _ h)) _ rfl rfl (by simp only; omega) hl]
    simp only [Nat.add_assoc, Nat.add_comm 1]

theorem Progress.finish_eq (a : Decimal) (negative hasPoint : Bool)
    (h : (if negative then -(a.coefficient.natAbs : Int) else a.coefficient.natAbs) =
      a.coefficient) :
    Progress.finish ⟨negative, a.coefficient.natAbs, a.scale, true, hasPoint⟩ = .ok a := by
  simp only [Progress.finish, ofParts?, h, Bool.not_true, Bool.false_eq_true, if_false]
  rw [dif_pos ⟨a.coefficient_lt, a.scale_le⟩]

/-! ## The text of a decimal -/

/-- The digits of a decimal, with zeros in front so that one stands before the point. -/
theorem exists_parts (a : Decimal) : ∃ whole places : List Char,
    (∀ c ∈ whole ++ places, c.isDigit = true) ∧ whole ≠ [] ∧ places.length = a.scale ∧
    Nat.ofDigitChars 10 (whole ++ places) 0 = a.coefficient.natAbs ∧
    a.text = String.ofList ((if a.coefficient < 0 then ['-'] else []) ++ whole ++
      if a.scale = 0 then [] else '.' :: places) := by
  obtain ⟨hdigits, hwhole, hplaces, hvalue⟩ := padded_parts a.scale a.coefficient.natAbs
  refine ⟨_, _, hdigits, hwhole, hplaces, hvalue, ?_⟩
  simp only [text]
  by_cases hs : a.scale = 0
  · rw [if_pos hs, if_pos hs, hs, Nat.sub_zero, List.take_length, List.append_nil]
    by_cases hneg : a.coefficient < 0
    · rw [if_pos hneg, if_pos hneg]
      rfl
    · rw [if_neg hneg, if_neg hneg]
      rfl
  · rw [if_neg hs, if_neg hs]
    by_cases hneg : a.coefficient < 0
    · rw [if_pos hneg, if_pos hneg]
      rfl
    · rw [if_neg hneg, if_neg hneg]
      rfl

/-- Reads whole digits and places in front of the end. -/
theorem Progress.read_parts (a : Decimal) (negative : Bool) {whole places : List Char}
    (hd : ∀ c ∈ whole ++ places, c.isDigit = true) (hw : whole ≠ [])
    (hp : places.length = a.scale)
    (hv : Nat.ofDigitChars 10 (whole ++ places) 0 = a.coefficient.natAbs)
    (hneg : (if negative then -(a.coefficient.natAbs : Int) else a.coefficient.natAbs) =
      a.coefficient) :
    Progress.read { negative } (whole ++ if a.scale = 0 then [] else '.' :: places) = .ok a := by
  rw [Nat.ofDigitChars_append] at hv
  have hbound := a.coefficient_lt
  have hwhole : Nat.ofDigitChars 10 whole 0 < coefficientBound :=
    Nat.lt_of_le_of_lt (le_ofDigitChars places _) (by rw [hv]; exact hbound)
  rw [Progress.read_whole whole _ (fun c h => hd c (List.mem_append_left _ h)) _ rfl rfl (.inr hw)
    hwhole]
  by_cases hs : a.scale = 0
  · rw [hs, List.length_eq_zero_iff] at hp
    subst hp
    rw [if_pos hs, Progress.read]
    rw [Nat.ofDigitChars_nil] at hv
    simp only [hv]
    rw [← hs]
    exact finish_eq a negative _ hneg
  · rw [if_neg hs, Progress.read]
    simp only [Bool.false_and, Bool.false_eq_true, if_false, Bool.not_false, Bool.and_true]
    rw [if_neg (by decide), if_pos (by decide),
      Progress.read_places places (fun c h => hd c (List.mem_append_right _ h)) _ rfl rfl
        (by simp only; have := a.scale_le; omega) (by simp only [hv]; exact hbound)]
    simp only [hv, Nat.zero_add, hp]
    exact finish_eq a negative _ hneg

/-- The text of a decimal reads back as the decimal, with its scale. -/
theorem read_text (a : Decimal) : read a.text = .ok a := by
  obtain ⟨whole, places, hd, hw, hp, hv, ht⟩ := exists_parts a
  have hplain : readPlain a.text.toList = .ok a := by
    rw [ht, String.toList_ofList]
    by_cases hneg : a.coefficient < 0
    · rw [if_pos hneg, List.singleton_append, List.cons_append, readPlain]
      exact Progress.read_parts a true hd hw hp hv (by rw [if_pos rfl]; omega)
    · obtain ⟨d, ds, rfl⟩ := List.exists_cons_of_ne_nil hw
      have hdig : d.isDigit = true := hd d (.head _)
      have hread := Progress.read_parts a false hd hw hp hv (by simp; omega)
      rw [if_neg hneg, List.nil_append]
      rw [List.cons_append] at hread ⊢
      rw [readPlain]
      · exact hread
      · exact List.cons_ne_nil _ _
      · rintro cs h
        cases h
        exact absurd hdig (by decide)
      · rintro cs h
        cases h
        exact absurd hdig (by decide)
  rw [read, hplain]

theorem trim_text (a : Decimal) : Text.trim a.text = a.text := by
  obtain ⟨whole, places, hd, -, -, -, ht⟩ := exists_parts a
  rw [ht]
  refine Text.trim_of_forall fun c hc => ?_
  simp only [List.mem_append] at hc
  rcases hc with (hc | hc) | hc
  · split at hc
    · rw [List.mem_singleton.1 hc]
      decide
    · cases hc
  · exact Text.isSpace_of_isDigit (hd c (List.mem_append_left _ hc))
  · split at hc
    · cases hc
    · rcases List.mem_cons.1 hc with rfl | hc
      · decide
      · exact Text.isSpace_of_isDigit (hd c (List.mem_append_right _ hc))

theorem text_ne_empty (a : Decimal) : a.text ≠ "" := by
  obtain ⟨whole, places, -, hw, -, -, ht⟩ := exists_parts a
  rw [ht, Ne, String.ofList_eq_empty_iff]
  simp [hw]

end Decimal
end ContentSchema
