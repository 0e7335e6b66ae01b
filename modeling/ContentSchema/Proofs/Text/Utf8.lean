import ContentSchema.Text.Utf8
import Mathlib.Algebra.Group.Nat.Defs
import Mathlib.Data.List.Basic

/-!
# UTF-8 read back

The bytes of a text are UTF-8 (`utf8Error?_toUTF8`), and reading them gives the text
(`utf8Lossy_toUTF8`). Both come from what the bytes of one character begin with, whatever follows
them (`Utf8Head.of_encodeChar`). The other way round, bytes that are UTF-8 are those of the text that
they are read as (`toUTF8_utf8Lossy`).

Characters of one byte are found among the bytes of a text as they are among its characters, in the
same order (`map_asciiByte_sublist`) and number (`count_asciiByte`).
-/
namespace ContentSchema.Text

namespace Utf8Head

theorem tail_zero (code seen : Nat) (bs : List UInt8) :
    tail code seen 0 bs = .scalar (Char.ofNat code) seen := rfl

/-- A continuation byte adds its six bits. -/
theorem tail_ofNat {k : Nat} (hk : k < 64) (code seen wanted : Nat) (bs : List UInt8) :
    tail code seen (wanted + 1) (UInt8.ofNat (k + 0x80) :: bs) =
      tail (code * 64 + k) (seen + 1) wanted bs := by
  have hb : (UInt8.ofNat (k + 0x80)).toNat = k + 0x80 := by
    rw [UInt8.toNat_ofNat']
    omega
  have hc : isContinuation (k + 0x80) = true := by
    simp only [isContinuation, Bool.and_eq_true, decide_eq_true_eq]
    omega
  have hm : (k + 0x80) % 64 = k := by omega
  rw [tail, hb, if_pos hc, hm]

theorem of_one {n : Nat} (hn : n < 0x80) (rest : List UInt8) :
    of (UInt8.ofNat n) rest = .scalar (Char.ofNat n) 1 := by
  have hb : (UInt8.ofNat n).toNat = n := by
    rw [UInt8.toNat_ofNat']
    omega
  have hw : width n = 1 := if_pos hn
  simp only [of, hb, hw]

/-- The first two bytes of a character of several. -/
theorem of_more {a k w : Nat} (ha : a < 256) (hk : k < 64) (hw : width a = w) (hw2 : 2 ≤ w)
    (hr : (secondRange a).1 ≤ k + 0x80 ∧ k + 0x80 ≤ (secondRange a).2) (bs : List UInt8) :
    of (UInt8.ofNat a) (UInt8.ofNat (k + 0x80) :: bs) =
      tail (a % 2 ^ (7 - w) * 64 + k) 2 (w - 2) bs := by
  have hb : (UInt8.ofNat a).toNat = a := by
    rw [UInt8.toNat_ofNat']
    omega
  have hc : (UInt8.ofNat (k + 0x80)).toNat = k + 0x80 := by
    rw [UInt8.toNat_ofNat']
    omega
  have hm : (k + 0x80) % 64 = k := by omega
  obtain ⟨w, rfl⟩ := Nat.exists_eq_add_of_le' hw2
  simp only [of, hb, hc, hw, hm]
  rw [if_pos (by simpa using hr)]
  rfl

/-- What the second byte has to be within, by the first, leaves out what has a shorter form, the
surrogates, and what lies beyond the last character. -/
theorem secondRange_of {a k : Nat} (hk : k < 64) (h0 : a = 0xE0 → 0x20 ≤ k)
    (hd : a = 0xED → k < 0x20) (hf : a = 0xF0 → 0x10 ≤ k) (h4 : a = 0xF4 → k < 0x10) :
    (secondRange a).1 ≤ k + 0x80 ∧ k + 0x80 ≤ (secondRange a).2 := by
  simp only [secondRange, beq_iff_eq]
  repeat' split
  all_goals simp only; omega

/-- The bytes of a character begin with it, whatever follows them. -/
theorem of_encodeChar (c : Char) (rest : List UInt8) :
    ∃ b bs, String.utf8EncodeChar c = b :: bs ∧
      of b (bs ++ rest) = .scalar c (bs.length + 1) := by
  have hvalid : c.toNat < 0xD800 ∨ 0xDFFF < c.toNat ∧ c.toNat < 0x110000 := c.valid
  have hself : Char.ofNat c.toNat = c := Char.ofNat_toNat c
  have hn : c.val.toNat = c.toNat := rfl
  simp only [String.utf8EncodeChar, hn]
  generalize c.toNat = n at hvalid hself
  by_cases h1 : n ≤ 0x7F
  · refine ⟨_, _, if_pos h1, ?_⟩
    rw [of_one (by omega), hself]
    rfl
  by_cases h2 : n ≤ 0x7FF
  · refine ⟨_, _, by rw [if_neg h1, if_pos h2], ?_⟩
    have hw : width (n / 64 % 32 + 0xC0) = 2 := by
      simp only [width]
      repeat' split
      all_goals omega
    have hcode : (n / 64 % 32 + 0xC0) % 2 ^ (7 - 2) * 64 + n % 64 = n := by omega
    rw [List.cons_append, List.nil_append, of_more (by omega) (by omega) hw (by omega)
      (secondRange_of (by omega) (by omega) (by omega) (by omega) (by omega)), hcode, tail_zero,
      hself]
    rfl
  by_cases h3 : n ≤ 0xFFFF
  · refine ⟨_, _, by rw [if_neg h1, if_neg h2, if_pos h3], ?_⟩
    have hw : width (n / 4096 % 16 + 0xE0) = 3 := by
      simp only [width]
      repeat' split
      all_goals omega
    have hcode : ((n / 4096 % 16 + 0xE0) % 2 ^ (7 - 3) * 64 + n / 64 % 64) * 64 + n % 64 = n := by
      omega
    simp only [List.cons_append, List.nil_append]
    rw [of_more (by omega) (by omega) hw (by omega)
      (secondRange_of (by omega) (by omega) (by omega) (by omega) (by omega)),
      show 3 - 2 = 0 + 1 by rfl, tail_ofNat (by omega), tail_zero, hcode, hself]
    rfl
  · refine ⟨_, _, by rw [if_neg h1, if_neg h2, if_neg h3], ?_⟩
    have hw : width (n / 262144 % 8 + 0xF0) = 4 := by
      simp only [width]
      repeat' split
      all_goals omega
    have hcode : (((n / 262144 % 8 + 0xF0) % 2 ^ (7 - 4) * 64 + n / 4096 % 64) * 64 +
        n / 64 % 64) * 64 + n % 64 = n := by
      omega
    simp only [List.cons_append, List.nil_append]
    rw [of_more (by omega) (by omega) hw (by omega)
      (secondRange_of (by omega) (by omega) (by omega) (by omega) (by omega)),
      show 4 - 2 = 1 + 1 by rfl, tail_ofNat (by omega), show 1 = 0 + 1 by rfl,
      tail_ofNat (by omega), tail_zero, hcode, hself]
    rfl

end Utf8Head

/-! ## Texts -/

theorem utf8Error?_go_flatMap (cs : List Char) (start fuel : Nat)
    (hf : (cs.flatMap String.utf8EncodeChar).length ≤ fuel) :
    utf8Error?.go start fuel (cs.flatMap String.utf8EncodeChar) = none := by
  induction cs generalizing start fuel with
  | nil => cases fuel <;> rfl
  | cons c cs ih =>
    obtain ⟨b, bs, he, ho⟩ := Utf8Head.of_encodeChar c (cs.flatMap String.utf8EncodeChar)
    rw [List.flatMap_cons, he, List.cons_append] at hf ⊢
    simp only [List.length_cons, List.length_append] at hf
    obtain ⟨fuel, rfl⟩ := Nat.exists_eq_add_of_le' (show 1 ≤ fuel by omega)
    simp only [utf8Error?.go, ho, Nat.add_sub_cancel, List.drop_left]
    exact ih _ _ (by omega)

theorem utf8Lossy_go_flatMap (cs : List Char) (fuel : Nat)
    (hf : (cs.flatMap String.utf8EncodeChar).length ≤ fuel) :
    utf8Lossy.go fuel (cs.flatMap String.utf8EncodeChar) = cs := by
  induction cs generalizing fuel with
  | nil => cases fuel <;> rfl
  | cons c cs ih =>
    obtain ⟨b, bs, he, ho⟩ := Utf8Head.of_encodeChar c (cs.flatMap String.utf8EncodeChar)
    rw [List.flatMap_cons, he, List.cons_append] at hf ⊢
    simp only [List.length_cons, List.length_append] at hf
    obtain ⟨fuel, rfl⟩ := Nat.exists_eq_add_of_le' (show 1 ≤ fuel by omega)
    simp only [utf8Lossy.go, ho, Nat.add_sub_cancel, List.drop_left]
    rw [ih _ (by omega)]

theorem toList_data_toUTF8 (s : String) :
    s.toUTF8.data.toList = s.toList.flatMap String.utf8EncodeChar := by
  rw [String.toUTF8_eq_toByteArray, ← String.ofList_toList (s := s), String.toByteArray_ofList,
    String.toList_ofList, List.utf8Encode, List.toList_data_toByteArray]

/-- The bytes of a text are UTF-8. -/
theorem utf8Error?_toUTF8 (s : String) : utf8Error? s.toUTF8.data.toList = none := by
  rw [toList_data_toUTF8]
  exact utf8Error?_go_flatMap _ _ _ (Nat.le_refl _)

/-- The bytes of a text read back as the text. -/
theorem utf8Lossy_toUTF8 (s : String) : String.ofList (utf8Lossy s.toUTF8.data.toList) = s := by
  rw [toList_data_toUTF8, utf8Lossy, utf8Lossy_go_flatMap _ _ (Nat.le_refl _), String.ofList_toList]

/-! ## Bytes that are UTF-8 -/

namespace Utf8Head

theorem ofNat_eq {b : UInt8} {n : Nat} (h : n = b.toNat) : UInt8.ofNat n = b := by
  rw [h, UInt8.ofNat_toNat]

theorem width_cases {n w : Nat} (h : width n = w) :
    w = 0 ∨ w = 1 ∧ n < 0x80 ∨ w = 2 ∧ 0xC2 ≤ n ∧ n < 0xE0 ∨ w = 3 ∧ 0xE0 ≤ n ∧ n < 0xF0 ∨
      w = 4 ∧ 0xF0 ≤ n ∧ n < 0xF5 := by
  rw [width] at h
  repeat' split at h
  all_goals omega

/-- What the second byte is within leaves out what has a shorter form, the surrogates, and what lies
beyond the last character. -/
theorem of_secondRange {a k : Nat} (h : (secondRange a).1 ≤ k ∧ k ≤ (secondRange a).2) :
    0x80 ≤ k ∧ k ≤ 0xBF ∧ (a = 0xE0 → 0xA0 ≤ k) ∧ (a = 0xED → k ≤ 0x9F) ∧ (a = 0xF0 → 0x90 ≤ k) ∧
      (a = 0xF4 → k ≤ 0x8F) := by
  simp only [secondRange, beq_iff_eq] at h
  repeat' split at h
  all_goals simp only at h; omega

/-- A byte that is wanted continues the character by six bits. -/
theorem of_tail_succ {code seen wanted w : Nat} {bs : List UInt8} {c : Char}
    (h : tail code seen (wanted + 1) bs = .scalar c w) :
    ∃ k rest, k < 64 ∧ bs = UInt8.ofNat (k + 0x80) :: rest ∧
      tail (code * 64 + k) (seen + 1) wanted rest = .scalar c w := by
  cases bs with
  | nil => cases h
  | cons b rest =>
    rw [tail] at h
    split at h
    · rename_i hb
      simp only [isContinuation, Bool.and_eq_true, decide_eq_true_eq] at hb
      exact ⟨b.toNat % 64, rest, by omega, by rw [ofNat_eq (b := b) (by omega)], h⟩
    · cases h

theorem encodeChar_ofNat {n : Nat} (hn : n < 0xD800 ∨ 0xDFFF < n ∧ n < 0x110000) :
    String.utf8EncodeChar (Char.ofNat n) =
      if n ≤ 0x7F then [UInt8.ofNat n]
      else if n ≤ 0x7FF then [UInt8.ofNat (n / 64 % 32 + 0xC0), UInt8.ofNat (n % 64 + 0x80)]
      else if n ≤ 0xFFFF then
        [UInt8.ofNat (n / 4096 % 16 + 0xE0), UInt8.ofNat (n / 64 % 64 + 0x80),
          UInt8.ofNat (n % 64 + 0x80)]
      else
        [UInt8.ofNat (n / 262144 % 8 + 0xF0), UInt8.ofNat (n / 4096 % 64 + 0x80),
          UInt8.ofNat (n / 64 % 64 + 0x80), UInt8.ofNat (n % 64 + 0x80)] := by
  have hvalid : n.isValidChar := hn
  have hnat : (Char.ofNat n).val.toNat = n := by
    rw [Char.ofNat, dif_pos hvalid]
    rfl
  simp only [String.utf8EncodeChar, hnat]

theorem encodeChar_two {x k : Nat} (hlow : 2 ≤ x) (hhigh : x < 32) (hk : k < 64) :
    String.utf8EncodeChar (Char.ofNat (x * 64 + k)) =
      [UInt8.ofNat (x + 0xC0), UInt8.ofNat (k + 0x80)] := by
  have hx : (x * 64 + k) / 64 % 32 = x := by omega
  have hk : (x * 64 + k) % 64 = k := by omega
  rw [encodeChar_ofNat (by omega), if_neg (by omega), if_pos (by omega), hx, hk]

theorem encodeChar_three {x k l : Nat} (hx : x < 16) (hk : k < 64) (hl : l < 64)
    (hlow : x = 0 → 0x20 ≤ k) (hsurrogate : x = 13 → k < 0x20) :
    String.utf8EncodeChar (Char.ofNat ((x * 64 + k) * 64 + l)) =
      [UInt8.ofNat (x + 0xE0), UInt8.ofNat (k + 0x80), UInt8.ofNat (l + 0x80)] := by
  have hx : ((x * 64 + k) * 64 + l) / 4096 % 16 = x := by omega
  have hk : ((x * 64 + k) * 64 + l) / 64 % 64 = k := by omega
  have hl : ((x * 64 + k) * 64 + l) % 64 = l := by omega
  rw [encodeChar_ofNat (by omega), if_neg (by omega), if_neg (by omega), if_pos (by omega), hx, hk,
    hl]

theorem encodeChar_four {x k l j : Nat} (hx : x < 5) (hk : k < 64) (hl : l < 64) (hj : j < 64)
    (hlow : x = 0 → 0x10 ≤ k) (hhigh : x = 4 → k < 0x10) :
    String.utf8EncodeChar (Char.ofNat (((x * 64 + k) * 64 + l) * 64 + j)) =
      [UInt8.ofNat (x + 0xF0), UInt8.ofNat (k + 0x80), UInt8.ofNat (l + 0x80),
        UInt8.ofNat (j + 0x80)] := by
  have hx : (((x * 64 + k) * 64 + l) * 64 + j) / 262144 % 8 = x := by omega
  have hk : (((x * 64 + k) * 64 + l) * 64 + j) / 4096 % 64 = k := by omega
  have hl : (((x * 64 + k) * 64 + l) * 64 + j) / 64 % 64 = l := by omega
  have hj : (((x * 64 + k) * 64 + l) * 64 + j) % 64 = j := by omega
  rw [encodeChar_ofNat (by omega), if_neg (by omega), if_neg (by omega), if_neg (by omega), hx, hk,
    hl, hj]

/-- Bytes that begin with a character begin with the bytes of that character. -/
theorem encodeChar_append_of_scalar {b : UInt8} {bs : List UInt8} {c : Char} {w : Nat}
    (h : of b bs = .scalar c w) :
    String.utf8EncodeChar c ++ bs.drop (w - 1) = b :: bs ∧ 1 ≤ w := by
  have hwidth := width_cases (n := b.toNat) rfl
  unfold of at h
  split at h
  · cases h
  · rename_i hw
    cases h
    have hlt : b.toNat < 0x80 := by omega
    rw [encodeChar_ofNat (by omega), if_pos (by omega), UInt8.ofNat_toNat]
    exact ⟨rfl, Nat.le_refl 1⟩
  · cases h
  · rename_i b₂ rest hne0 hne1
    dsimp only at h
    split at h
    · rename_i hrange
      have hsecond := of_secondRange (by simpa using hrange)
      generalize width b.toNat = v at *
      have hb₂ : UInt8.ofNat (b₂.toNat % 64 + 0x80) = b₂ := ofNat_eq (by omega)
      obtain h0 | ⟨h1, -⟩ | ⟨rfl, hb⟩ | ⟨rfl, hb⟩ | ⟨rfl, hb⟩ := hwidth
      · exact absurd h0 hne0
      · exact absurd h1 hne1
      · cases h
        have hx : UInt8.ofNat (b.toNat % 32 + 0xC0) = b := ofNat_eq (by omega)
        have hencode := encodeChar_two (x := b.toNat % 32) (k := b₂.toNat % 64) (by omega)
          (by omega) (by omega)
        rw [hx, hb₂] at hencode
        exact ⟨congrArg (· ++ rest) hencode, by decide⟩
      · obtain ⟨k, rest, hk, rfl, htail⟩ := of_tail_succ h
        cases htail
        have hx : UInt8.ofNat (b.toNat % 16 + 0xE0) = b := ofNat_eq (by omega)
        have hencode := encodeChar_three (x := b.toNat % 16) (k := b₂.toNat % 64) (by omega)
          (by omega) hk (by omega) (by omega)
        rw [hx, hb₂] at hencode
        exact ⟨congrArg (· ++ rest) hencode, by decide⟩
      · obtain ⟨k, rest, hk, rfl, htail⟩ := of_tail_succ h
        obtain ⟨l, rest, hl, rfl, hend⟩ := of_tail_succ htail
        cases hend
        have hx : UInt8.ofNat (b.toNat % 8 + 0xF0) = b := ofNat_eq (by omega)
        have hencode := encodeChar_four (x := b.toNat % 8) (k := b₂.toNat % 64) (by omega)
          (by omega) hk hl (by omega) (by omega)
        rw [hx, hb₂] at hencode
        exact ⟨congrArg (· ++ rest) hencode, by decide⟩
    · cases h

end Utf8Head

/-- Where bytes are UTF-8 to the end, they are the bytes of the characters that are read. -/
theorem flatMap_utf8Lossy_go {start fuel : Nat} {bytes : List UInt8} (hf : bytes.length ≤ fuel)
    (h : utf8Error?.go start fuel bytes = none) :
    (utf8Lossy.go fuel bytes).flatMap String.utf8EncodeChar = bytes := by
  induction fuel generalizing start bytes with
  | zero =>
    rw [List.length_eq_zero_iff.1 (Nat.le_zero.1 hf)]
    rfl
  | succ fuel ih =>
    cases bytes with
    | nil => rfl
    | cons b bs =>
      rw [utf8Error?.go] at h
      rw [utf8Lossy.go]
      cases hhead : Utf8Head.of b bs with
      | scalar c w =>
        obtain ⟨hencode, hw⟩ := Utf8Head.encodeChar_append_of_scalar hhead
        rw [hhead] at h
        have hlen : (bs.drop (w - 1)).length ≤ fuel := by
          rw [List.length_drop]
          rw [List.length_cons] at hf
          omega
        rw [List.flatMap_cons, ih hlen h, hencode]
      | malformed w =>
        rw [hhead] at h
        cases h
      | truncated =>
        rw [hhead] at h
        cases h

/-- Bytes that are UTF-8 are those of the text that they are read as. -/
theorem toUTF8_utf8Lossy {b : ByteArray} (h : utf8Error? b.data.toList = none) :
    (String.ofList (utf8Lossy b.data.toList)).toUTF8 = b := by
  refine ByteArray.ext (Array.toList_inj.1 ?_)
  rw [toList_data_toUTF8, String.toList_ofList]
  exact flatMap_utf8Lossy_go (Nat.le_refl _) h

/-! ## Characters of one byte -/

/-- The byte of a character that has one. -/
def asciiByte (c : Char) : UInt8 := UInt8.ofNat c.toNat

theorem encodeChar_of_ascii {c : Char} (hc : c.toNat < 128) :
    String.utf8EncodeChar c = [asciiByte c] :=
  if_pos (Nat.le_of_lt_succ hc)

theorem toNat_asciiByte {c : Char} (hc : c.toNat < 128) : (asciiByte c).toNat = c.toNat := by
  rw [asciiByte, UInt8.toNat_ofNat']
  omega

theorem asciiByte_inj {c d : Char} (hc : c.toNat < 128) (hd : d.toNat < 128) :
    asciiByte c = asciiByte d ↔ c = d := by
  refine ⟨fun h => Char.toNat_inj.1 ?_, congrArg asciiByte⟩
  rw [← toNat_asciiByte hc, h, toNat_asciiByte hd]

/-- The bytes of other characters are greater ones. -/
theorem le_of_mem_encodeChar {c : Char} (hc : 128 ≤ c.toNat) {b : UInt8}
    (hb : b ∈ String.utf8EncodeChar c) : 128 ≤ b.toNat := by
  have hvalid : c.toNat < 0x110000 := by
    have hc : c.toNat < 0xD800 ∨ 0xDFFF < c.toNat ∧ c.toNat < 0x110000 := c.valid
    omega
  have hn : c.val.toNat = c.toNat := rfl
  simp only [String.utf8EncodeChar, hn] at hb
  rw [if_neg (by omega)] at hb
  split at hb
  · simp only [List.mem_cons, List.not_mem_nil, or_false] at hb
    rcases hb with rfl | rfl <;> rw [UInt8.toNat_ofNat'] <;> omega
  split at hb <;> simp only [List.mem_cons, List.not_mem_nil, or_false] at hb
  · rcases hb with rfl | rfl | rfl <;> rw [UInt8.toNat_ofNat'] <;> omega
  · rcases hb with rfl | rfl | rfl | rfl <;> rw [UInt8.toNat_ofNat'] <;> omega

/-- Characters of one byte stand in a text in some order just if their bytes do. -/
theorem map_asciiByte_sublist {as : List Char} (has : ∀ a ∈ as, a.toNat < 128) {cs : List Char} :
    (as.map asciiByte).Sublist (cs.flatMap String.utf8EncodeChar) ↔ as.Sublist cs := by
  induction cs generalizing as with
  | nil => simp
  | cons c cs ih =>
    cases as with
    | nil => simp
    | cons a as =>
      have htail : ∀ d ∈ as, d.toNat < 128 := fun d hd => has d (.tail _ hd)
      have ha : a.toNat < 128 := has a (.head _)
      rw [List.flatMap_cons, List.cons_sublist_cons', ← ih has, ← ih htail]
      by_cases hc : c.toNat < 128
      · rw [encodeChar_of_ascii hc, List.singleton_append, List.map_cons, List.cons_sublist_cons',
          asciiByte_inj ha hc]
      · have hac : a ≠ c := by
          rintro rfl
          exact hc ha
        simp only [hac, false_and, or_false]
        refine ⟨fun h => ?_, fun h => h.trans (List.sublist_append_right _ _)⟩
        obtain ⟨first, others, heq, hfirst, hothers⟩ := List.sublist_append_iff.1 h
        cases first with
        | nil => rwa [heq, List.nil_append]
        | cons b first =>
          have hb := le_of_mem_encodeChar (Nat.le_of_not_lt hc) (hfirst.subset (.head _))
          rw [List.map_cons, List.cons_append] at heq
          rw [← (List.cons.inj heq).1, toNat_asciiByte ha] at hb
          omega

theorem count_asciiByte {c : Char} (hc : c.toNat < 128) (cs : List Char) :
    (cs.flatMap String.utf8EncodeChar).count (asciiByte c) = cs.count c := by
  have hle (n : Nat) :
      n ≤ (cs.flatMap String.utf8EncodeChar).count (asciiByte c) ↔ n ≤ cs.count c := by
    rw [← List.replicate_sublist_iff, ← List.replicate_sublist_iff, ← List.map_replicate]
    exact map_asciiByte_sublist fun a ha => List.eq_of_mem_replicate ha ▸ hc
  exact Nat.le_antisymm ((hle _).1 (Nat.le_refl _)) ((hle _).2 (Nat.le_refl _))

end ContentSchema.Text
