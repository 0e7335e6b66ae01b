import ContentSchema.Calendar.Text
import ContentSchema.Proofs.Number.Decimals

/-!
# Dates and times read back

A date reads back from its text (`readDate_dateText`). So does a time, as `Datetime.asRead` says
(`readDatetime_datetimeText`): with what lies below the millionth of a second dropped if it is no
leap second, and as another time if it is one (`Datetime.asRead_eq_toMicros_iff`). Two times have one
text just if they agree up to the millionth of a second (`datetimeText_inj`).
-/
namespace ContentSchema.Calendar

/-! ## Padded numbers -/

theorem isDigit_of_mem_paddedDigits {width n : Nat} {c : Char} (h : c ∈ paddedDigits 10 width n) :
    c.isDigit = true :=
  isDigit_of_mem_replicate_append h

theorem ofDigitChars_paddedDigits (width n : Nat) :
    Nat.ofDigitChars 10 (paddedDigits 10 width n) 0 = n :=
  ofDigitChars_replicate_append _ _

/-- What does not go on with a digit. -/
def StopsDigits (cs : List Char) : Prop := ∀ c, cs.head? = some c → c.isDigit = false

theorem readDigits_digits (ds rest : List Char) (hd : ∀ c ∈ ds, c.isDigit = true) (acc width : Nat)
    (hw : ds.length ≤ width) (hrest : ds.length = width ∨ StopsDigits rest)
    (hb : Nat.ofDigitChars 10 ds acc < int64Bound) :
    readDigits acc width (ds ++ rest) = .ok (Nat.ofDigitChars 10 ds acc, rest) := by
  induction ds generalizing acc width with
  | nil =>
    rw [Nat.ofDigitChars_nil, List.nil_append]
    cases width with
    | zero => rw [readDigits]
    | succ width =>
      have hstop : StopsDigits rest := hrest.resolve_left (by simp)
      cases rest with
      | nil => rw [readDigits]; simp
      | cons c rest =>
        have hc : c.isDigit = false := hstop c rfl
        simp only [readDigits, hc, Bool.false_eq_true, if_false]
  | cons c ds ih =>
    rw [ofDigitChars_cons_mul] at hb ⊢
    cases width with
    | zero => simp at hw
    | succ width =>
      have hc : c.isDigit = true := hd c (.head _)
      have hlt : acc * 10 + (c.toNat - 48) < int64Bound :=
        Nat.lt_of_le_of_lt (le_ofDigitChars ds _) hb
      rw [List.length_cons] at hw hrest
      simp only [List.cons_append, readDigits, hc, hlt, if_true]
      exact ih (fun d h => hd d (.tail _ h)) _ width (by omega) (hrest.imp_left (by omega)) hb

theorem readNumber_digits {ds : List Char} (rest : List Char) (hd : ∀ c ∈ ds, c.isDigit = true)
    (hne : ds ≠ []) {width : Nat} (hw : ds.length ≤ width)
    (hrest : ds.length = width ∨ StopsDigits rest)
    (hb : Nat.ofDigitChars 10 ds 0 < int64Bound) :
    readNumber width (ds ++ rest) = .ok (Nat.ofDigitChars 10 ds 0, rest) := by
  obtain ⟨c, cs, rfl⟩ := List.exists_cons_of_ne_nil hne
  have hc : c.isDigit = true := hd c (.head _)
  have h := readDigits_digits (c :: cs) rest hd 0 width hw hrest hb
  rw [List.cons_append] at h ⊢
  rw [readNumber, if_pos hc, h]

theorem readNumber_paddedDigits {width n : Nat} (rest : List Char) (hw : 0 < width)
    (hn : n < 10 ^ width) (hb : n < int64Bound) :
    readNumber width (paddedDigits 10 width n ++ rest) = .ok (n, rest) := by
  have hl := length_paddedDigits (by decide) hw hn
  rw [readNumber_digits rest (fun c => isDigit_of_mem_paddedDigits) (paddedDigits_ne_nil _ _ _)
    (by omega) (.inl hl) (by rwa [ofDigitChars_paddedDigits]), ofDigitChars_paddedDigits]

theorem head?_paddedDigits_append {width n : Nat} {rest : List Char} {c : Char}
    (h : (paddedDigits 10 width n ++ rest).head? = some c) : c.isDigit = true := by
  obtain ⟨d, ds, hp⟩ := List.exists_cons_of_ne_nil (paddedDigits_ne_nil 10 width n)
  rw [hp, List.cons_append, List.head?_cons, Option.some.injEq] at h
  subst h
  have hd : d ∈ paddedDigits 10 width n := by
    rw [hp]
    exact .head _
  exact isDigit_of_mem_paddedDigits hd

theorem trimStart_paddedDigits_append (width n : Nat) (rest : List Char) :
    Text.trimStart (paddedDigits 10 width n ++ rest) = paddedDigits 10 width n ++ rest :=
  Text.trimStart_of_head fun _ h => Text.isSpace_of_isDigit (head?_paddedDigits_append h)

theorem readPart_paddedDigits {low high n : Nat} (rest : List Char) (hl : low ≤ n) (hh : n ≤ high)
    (hn : n < 100) : readPart 2 low high (paddedDigits 10 2 n ++ rest) = .ok (n, rest) := by
  have hb : n < int64Bound := by simp only [int64Bound]; omega
  simp only [readPart, trimStart_paddedDigits_append,
    readNumber_paddedDigits rest (show 0 < 2 by decide) hn hb, bind, Except.bind]
  rw [if_pos ⟨hl, hh⟩]

/-! ## Days -/

/-- A year as read, which has to fit into 32 bits. -/
def checkYear (r : Int × List Char) : Except ReadError (Int × List Char) :=
  if -0x80000000 ≤ r.1 ∧ r.1 < 0x80000000 then .ok r else .error .outOfRange

theorem readYear_minus (cs : List Char) :
    readYear ('-' :: cs) = (readNumber cs.length cs).bind fun r => checkYear (-(r.1 : Int), r.2) := by
  simp only [readYear]
  rw [Text.trimStart_cons_of_not_isSpace _ (by decide)]
  simp only [pure_bind]
  rfl

theorem readYear_plus (cs : List Char) :
    readYear ('+' :: cs) = (readNumber cs.length cs).bind fun r => checkYear ((r.1 : Int), r.2) := by
  simp only [readYear]
  rw [Text.trimStart_cons_of_not_isSpace _ (by decide)]
  simp only [pure_bind]
  rfl

theorem readYear_of_isDigit {c : Char} (cs : List Char) (hc : c.isDigit = true) :
    readYear (c :: cs) = (readNumber 4 (c :: cs)).bind fun r => checkYear ((r.1 : Int), r.2) := by
  simp only [readYear]
  rw [Text.trimStart_cons_of_not_isSpace _ (Text.isSpace_of_isDigit hc)]
  split
  · rename_i h
    cases h
    exact absurd hc (by decide)
  · rename_i h
    cases h
    exact absurd hc (by decide)
  · simp only [pure_bind]
    rfl

theorem checkYear_eq {y z : Int} (rest : List Char) (h : z = y) (hl : -262143 ≤ y)
    (hh : y ≤ 262142) : checkYear (z, rest) = .ok (y, rest) := by
  subst h
  exact if_pos ⟨by omega, by omega⟩

theorem bind_checkYear {r : Except ReadError (Nat × List Char)} {n : Nat} {rest : List Char}
    {f : Nat × List Char → Except ReadError (Int × List Char)} {y : Int × List Char}
    (hr : r = .ok (n, rest)) (hf : f (n, rest) = .ok y) : r.bind f = .ok y := by
  subst hr
  exact hf

theorem readYear_yearText (y : Int) (rest : List Char) (hstop : StopsDigits rest)
    (hl : -262143 ≤ y) (hh : y ≤ 262142) : readYear (yearText y ++ rest) = .ok (y, rest) := by
  have hb : y.natAbs < int64Bound := by simp only [int64Bound]; omega
  have hnum : readNumber (paddedDigits 10 4 y.natAbs ++ rest).length
      (paddedDigits 10 4 y.natAbs ++ rest) = .ok (y.natAbs, rest) := by
    rw [readNumber_digits rest (fun c => isDigit_of_mem_paddedDigits) (paddedDigits_ne_nil _ _ _)
      (by simp) (.inr hstop) (by rwa [ofDigitChars_paddedDigits]), ofDigitChars_paddedDigits]
  by_cases hy : 0 ≤ y ∧ y ≤ 9999
  · obtain ⟨c, cs, hp⟩ := List.exists_cons_of_ne_nil (paddedDigits_ne_nil 10 4 y.natAbs)
    have hmem : c ∈ paddedDigits 10 4 y.natAbs := by
      rw [hp]
      exact .head _
    have hc : c.isDigit = true := isDigit_of_mem_paddedDigits hmem
    have hnum4 := readNumber_paddedDigits rest (show 0 < 4 by decide)
      (show y.natAbs < 10 ^ 4 by omega) hb
    simp only [yearText, if_pos hy]
    rw [hp, List.cons_append] at hnum4 ⊢
    rw [readYear_of_isDigit _ hc]
    exact bind_checkYear hnum4 (checkYear_eq rest (Int.natAbs_of_nonneg hy.1) hl hh)
  · by_cases hneg : y < 0
    · simp only [yearText, if_neg hy, if_pos hneg, List.cons_append]
      rw [readYear_minus]
      exact bind_checkYear hnum (checkYear_eq rest (by omega) hl hh)
    · simp only [yearText, if_neg hy, if_neg hneg, List.cons_append]
      rw [readYear_plus]
      exact bind_checkYear hnum
        (checkYear_eq rest (Int.natAbs_of_nonneg (Int.not_lt.1 hneg)) hl hh)

theorem daysInMonth_le (year : Int) (month : Nat) : daysInMonth year month ≤ 31 := by
  simp only [daysInMonth]
  repeat' split
  all_goals omega

theorem readRawDate_dateChars (d : Date) (rest : List Char) :
    readRawDate (dateChars d ++ rest) = .ok ((d.year, d.month, d.day), rest) := by
  obtain ⟨hyl, hyh, hml, hmh, hdl, hdh⟩ := d.dayExists
  have := daysInMonth_le d.year d.month
  have hstop (cs : List Char) : StopsDigits ('-' :: cs) := by
    intro c hc
    cases hc
    rfl
  simp only [readRawDate, dateChars, List.append_assoc, List.cons_append]
  simp only [readYear_yearText d.year _ (hstop _) hyl hyh, bind, Except.bind, readMark, BEq.rfl,
    if_true, readPart_paddedDigits _ hml hmh (show d.month < 100 by omega),
    readPart_paddedDigits rest hdl (show d.day ≤ 31 by omega) (show d.day < 100 by omega)]
  rfl

theorem resolveDate_parts (d : Date) : resolveDate (d.year, d.month, d.day) = .ok d := by
  simp only [resolveDate, Date.ofParts?]
  rw [dif_pos d.dayExists]
  rfl

/-- A day reads back from its text. -/
theorem readDate_dateText (d : Date) : readDate (dateText d) = .ok d := by
  have h := readRawDate_dateChars d []
  rw [List.append_nil] at h
  simp only [readDate, dateText, String.toList_ofList, h, bind, Except.bind, List.isEmpty_nil,
    if_true, resolveDate_parts]

/-! ## Times -/

/-- The time without what lies below a millionth of a second. -/
def Datetime.toMicros (t : Datetime) : Datetime :=
  { t with
    nanos := t.nanos / 1000 * 1000
    timeExists := by
      obtain ⟨hh, hm, hs, hn⟩ := t.timeExists
      exact ⟨hh, hm, hs, by omega⟩ }

/-- The time that the text of a time stands for. The text of a leap second names the second after it,
and its millionths have seven digits, the first of which is read as the tenths of a second. -/
def Datetime.asRead (t : Datetime) : Datetime :=
  let second := t.second + t.nanos / 1000000000
  let fraction := t.nanos / 1000 * if t.nanos < 1000000000 then 1000 else 100
  { t with
    second := min second 59
    nanos := if second = 60 then 1000000000 + fraction else fraction
    timeExists := by
      obtain ⟨hh, hm, hs, hn⟩ := t.timeExists
      refine ⟨hh, hm, by omega, ?_⟩
      dsimp only [fraction]
      split <;> split <;> omega }

/-- A time is read without what lies below a millionth of a second and otherwise as it is, unless it
is a leap second. -/
theorem Datetime.asRead_eq_toMicros_iff (t : Datetime) :
    asRead t = toMicros t ↔ t.nanos < 1000000000 := by
  obtain ⟨date, hour, minute, second, nanos, hh, hm, hs, hn⟩ := t
  simp only [asRead, toMicros, Datetime.mk.injEq, true_and]
  by_cases h : nanos < 1000000000
  · have hsec : nanos / 1000000000 = 0 := by omega
    simp only [h, hsec, if_true, iff_true]
    exact ⟨by omega, if_neg (by omega)⟩
  · -- The second is another one, or it is the last of its minute and the parts differ.
    have hsec : nanos / 1000000000 = 1 := by omega
    simp only [h, hsec, if_false, iff_false, not_and]
    intro hlast
    rw [if_pos (by omega)]
    omega

theorem readFraction_paddedDigits {n digits : Nat}
    (hlen : (paddedDigits 10 6 n).length = digits) (hdigits : digits ≤ 9) (hb : n < int64Bound) :
    readFraction ('.' :: paddedDigits 10 6 n) = .ok (n * 10 ^ (9 - digits), []) := by
  have hnum := readNumber_digits [] (fun c => isDigit_of_mem_paddedDigits)
    (paddedDigits_ne_nil 10 6 n) (hlen ▸ hdigits) (.inr fun c hc => by cases hc)
    (by rwa [ofDigitChars_paddedDigits])
  rw [List.append_nil, ofDigitChars_paddedDigits] at hnum
  simp only [readFraction, hnum, bind, Except.bind, pure, Except.pure, hlen]
  rfl

/-- Millionths of a second are read as such up to a second, and as tenths of them beyond. -/
theorem readFraction_micros {nanos : Nat} (h : nanos < 2000000000) :
    readFraction (if nanos / 1000 = 0 then [] else '.' :: paddedDigits 10 6 (nanos / 1000)) =
      .ok (nanos / 1000 * if nanos < 1000000000 then 1000 else 100, []) := by
  have hb : nanos / 1000 < int64Bound := by simp only [int64Bound]; omega
  by_cases hz : nanos / 1000 = 0
  · rw [if_pos hz, hz, Nat.zero_mul]
    rfl
  · rw [if_neg hz]
    by_cases hleap : nanos < 1000000000
    · have hlen : (paddedDigits 10 6 (nanos / 1000)).length = 6 :=
        length_paddedDigits (by decide) (by decide) (by omega)
      rw [if_pos hleap]
      exact readFraction_paddedDigits hlen (by decide) hb
    · have hlen : (paddedDigits 10 6 (nanos / 1000)).length = 6 + 1 :=
        length_paddedDigits_succ (by decide) (by decide) (by omega) (by omega)
      rw [if_neg hleap]
      exact readFraction_paddedDigits hlen (by decide) hb

/-- What the text of a time reads back as. -/
theorem readDatetime_datetimeText (t : Datetime) :
    readDatetime (datetimeText t) = .ok (Datetime.asRead t) := by
  obtain ⟨hh, hm, hs, hn⟩ := t.timeExists
  have hsecond : t.second + t.nanos / 1000000000 ≤ 60 := by omega
  have hspace (n : Nat) (cs : List Char) :
      Text.trimStart (' ' :: (paddedDigits 10 2 n ++ cs)) = paddedDigits 10 2 n ++ cs :=
    trimStart_paddedDigits_append 2 n cs
  simp only [readDatetime, datetimeText, String.toList_ofList, datetimeChars, secondsChars,
    List.append_assoc, List.cons_append]
  simp only [readRawDate_dateChars, bind, Except.bind, hspace, readMark, BEq.rfl, if_true,
    readPart_paddedDigits _ (Nat.zero_le _) (show t.hour ≤ 23 by omega) (show t.hour < 100 by omega),
    readPart_paddedDigits _ (Nat.zero_le _) (show t.minute ≤ 59 by omega)
      (show t.minute < 100 by omega),
    readPart_paddedDigits _ (Nat.zero_le _) hsecond (Nat.lt_of_le_of_lt hsecond (by decide)),
    readFraction_micros hn, List.isEmpty_nil, Bool.not_true, Bool.false_eq_true, if_false,
    resolveDate_parts, Datetime.ofParts?]
  exact congrArg (Option.elim · _ _) (dif_pos (Datetime.asRead t).timeExists)

/-- A time of whole millionths of a second reads back from its text. -/
theorem readDatetime_of_wholeMicros (t : Datetime) (h : t.nanos < 1000000000)
    (hw : t.nanos % 1000 = 0) : readDatetime (datetimeText t) = .ok t := by
  rw [readDatetime_datetimeText t, (Datetime.asRead_eq_toMicros_iff t).2 h]
  have hn : t.nanos / 1000 * 1000 = t.nanos := by omega
  obtain ⟨date, hour, minute, second, nanos, ht⟩ := t
  simp only at hn
  simp only [Datetime.toMicros, hn]

/-! ## Times with one text -/

theorem append_paddedDigits_inj {n k : Nat} (hn : n < 100) (hk : k < 100) {cs ds : List Char}
    (h : paddedDigits 10 2 n ++ cs = paddedDigits 10 2 k ++ ds) : n = k ∧ cs = ds := by
  have hlen (i : Nat) (hi : i < 100) : (paddedDigits 10 2 i).length = 2 :=
    length_paddedDigits (by decide) (by decide) (by omega)
  obtain ⟨hdigits, hrest⟩ := List.append_inj h ((hlen n hn).trans (hlen k hk).symm)
  refine ⟨?_, hrest⟩
  rw [← ofDigitChars_paddedDigits 2 n, hdigits, ofDigitChars_paddedDigits]

theorem Datetime.toMicros_eq_iff (t u : Datetime) : toMicros t = toMicros u ↔
    t.date = u.date ∧ t.hour = u.hour ∧ t.minute = u.minute ∧ t.second = u.second ∧
      t.nanos / 1000 = u.nanos / 1000 := by
  have hmicros : t.nanos / 1000 * 1000 = u.nanos / 1000 * 1000 ↔ t.nanos / 1000 = u.nanos / 1000 := by
    omega
  simp only [toMicros, Datetime.mk.injEq, hmicros]

/-- Two times have one text just if they agree up to the millionth of a second. -/
theorem datetimeText_inj (t u : Datetime) :
    datetimeText t = datetimeText u ↔ Datetime.toMicros t = Datetime.toMicros u := by
  rw [Datetime.toMicros_eq_iff, datetimeText, datetimeText, String.ofList_inj]
  obtain ⟨hth, htm, hts, htn⟩ := t.timeExists
  obtain ⟨huh, hum, hus, hun⟩ := u.timeExists
  constructor
  · intro h
    simp only [datetimeChars, secondsChars, List.append_assoc, List.cons_append] at h
    -- the day is what is read in front, and what follows has parts of two digits
    have hdays := (readRawDate_dateChars t.date _).symm.trans
      ((congrArg readRawDate h).trans (readRawDate_dateChars u.date _))
    simp only [Except.ok.injEq, Prod.mk.injEq, List.cons.injEq, true_and] at hdays
    obtain ⟨⟨hyear, hmonth, hday⟩, hrest⟩ := hdays
    obtain ⟨hhour, hrest⟩ := append_paddedDigits_inj (by omega) (by omega) hrest
    obtain ⟨hminute, hrest⟩ := append_paddedDigits_inj (by omega) (by omega) (List.cons.inj hrest).2
    obtain ⟨hsecond, hrest⟩ := append_paddedDigits_inj (by omega) (by omega) (List.cons.inj hrest).2
    have hmicros : t.nanos / 1000 = u.nanos / 1000 := by
      by_cases ht : t.nanos / 1000 = 0
      · by_cases hu : u.nanos / 1000 = 0
        · rw [ht, hu]
        · rw [if_pos ht, if_neg hu] at hrest
          cases hrest
      · by_cases hu : u.nanos / 1000 = 0
        · rw [if_neg ht, if_pos hu] at hrest
          cases hrest
        · rw [if_neg ht, if_neg hu] at hrest
          rw [← ofDigitChars_paddedDigits 6 (t.nanos / 1000), (List.cons.inj hrest).2,
            ofDigitChars_paddedDigits]
    have hdate := resolveDate_parts t.date
    rw [hyear, hmonth, hday, resolveDate_parts] at hdate
    exact ⟨(Except.ok.inj hdate).symm, hhour, hminute, by omega, hmicros⟩
  · rintro ⟨hdate, hhour, hminute, hsecond, hmicros⟩
    have hleap : t.nanos / 1000000000 = u.nanos / 1000000000 := by omega
    simp only [datetimeChars, secondsChars, hdate, hhour, hminute, hsecond, hmicros, hleap]

/-! ## The ends of the texts -/

theorem head?_yearText {y : Int} {rest : List Char} {c : Char}
    (h : (yearText y ++ rest).head? = some c) : Text.isSpace c = false := by
  simp only [yearText] at h
  split at h
  · exact Text.isSpace_of_isDigit (head?_paddedDigits_append h)
  · simp only [List.cons_append, List.head?_cons, Option.some.injEq] at h
    subst h
    split <;> decide

theorem getLast?_paddedDigits {cs : List Char} {mark : Char} {width n : Nat} {c : Char}
    (h : (cs ++ mark :: paddedDigits 10 width n).getLast? = some c) : Text.isSpace c = false := by
  obtain ⟨d, ds, hp⟩ := List.exists_cons_of_ne_nil (paddedDigits_ne_nil 10 width n)
  rw [List.getLast?_append, List.getLast?_cons, hp] at h
  have hc : c ∈ paddedDigits 10 width n := by
    rw [hp]
    simp only [Option.some_or, Option.some.injEq] at h
    exact h ▸ List.getLast_mem _
  exact Text.isSpace_of_isDigit (isDigit_of_mem_paddedDigits hc)

theorem trim_dateText (d : Date) : Text.trim (dateText d) = dateText d := by
  refine Text.trim_of_ends (fun c h => ?_) fun c h => ?_
  · rw [dateChars, List.append_assoc] at h
    exact head?_yearText h
  · exact getLast?_paddedDigits h

theorem trim_datetimeText (t : Datetime) : Text.trim (datetimeText t) = datetimeText t := by
  refine Text.trim_of_ends (fun c h => ?_) fun c h => ?_
  · simp only [datetimeChars, secondsChars, dateChars, List.append_assoc] at h
    exact head?_yearText h
  · simp only [datetimeChars] at h
    split at h
    · rw [List.append_nil, secondsChars] at h
      exact getLast?_paddedDigits h
    · exact getLast?_paddedDigits h

theorem dateText_ne_empty (d : Date) : dateText d ≠ "" := by
  rw [dateText, Ne, String.ofList_eq_empty_iff]
  simp [dateChars]

theorem datetimeText_ne_empty (t : Datetime) : datetimeText t ≠ "" := by
  rw [datetimeText, Ne, String.ofList_eq_empty_iff]
  simp [datetimeChars, secondsChars]

end ContentSchema.Calendar
