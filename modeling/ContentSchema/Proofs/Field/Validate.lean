import ContentSchema.Proofs.Field.Validation
import ContentSchema.Proofs.Field.Validity

/-!
# What validation decides

A step of the validation lets pass what satisfies its rule and rejects everything else in a definite
way (`Decides`), and steps in sequence do so for both rules (`Decides.seq`, `Decides.forM`). The steps
are those of `Field.validate_eq`: all of a value but its items, its parts, and its items together.

Result: validation accepts just the valid values, and gives just the rejections of the others
(`Field.validate_decides`).
-/
namespace ContentSchema

/-! ## Checks -/

/-- Whether a check lets pass what satisfies a rule, and rejects everything else in the given way. -/
structure Decides {ε : Type} (check : Except ε Unit) (rule : Prop) (rejects : ε → Prop) : Prop where
  /-- The check passes just if the rule is satisfied. -/
  ok : check = .ok () ↔ rule
  /-- The check fails in just the given ways. -/
  error (e : ε) : check = .error e ↔ rejects e

section Checks

variable {ε : Type} {a b : Except ε Unit} {p q : Prop} {r s : ε → Prop}

/-- A check that lets pass what it should. -/
theorem decides_pass (hp : p) (hr : ∀ e, ¬ r e) : Decides (.ok () : Except ε Unit) p r :=
  ⟨iff_of_true rfl hp, fun e => iff_of_false nofun (hr e)⟩

/-- A check that rejects what it should. -/
theorem decides_fail {e : ε} (hp : ¬ p) (hr : ∀ e', r e' ↔ e' = e) :
    Decides (.error e : Except ε Unit) p r :=
  ⟨iff_of_false nofun hp, fun e' => by rw [hr, Except.error.injEq, eq_comm]⟩

/-- A test for a rule. -/
theorem decides_ite {c : Prop} [Decidable c] (h : c ↔ p) (e : ε) :
    Decides (if c then .ok () else .error e) p fun e' => ¬ p ∧ e' = e := by
  split
  · rename_i hc
    exact decides_pass (h.1 hc) fun _ hr => hr.1 (h.1 hc)
  · rename_i hc
    exact decides_fail (fun hp => hc (h.2 hp)) fun _ => and_iff_right fun hp => hc (h.2 hp)

theorem Decides.congr (h : Decides a p r) (hpq : p ↔ q) (hrs : ∀ e, r e ↔ s e) : Decides a q s :=
  ⟨h.ok.trans hpq, fun e => (h.error e).trans (hrs e)⟩

/-- One check after another asks for both rules, and the first one has precedence. -/
theorem Decides.seq (ha : Decides a p r) (hb : p → Decides b q s) :
    Decides (a >>= fun _ => b) (p ∧ q) fun e => r e ∨ p ∧ s e := by
  cases a with
  | error e =>
    have hp : ¬ p := fun h => nomatch ha.ok.2 h
    refine ⟨iff_of_false nofun fun h => hp h.1, fun e' => ?_⟩
    rw [or_iff_left fun h => hp h.1]
    exact ha.error e'
  | ok u =>
    have hp : p := ha.ok.1 rfl
    have hr (e : ε) : ¬ r e := fun h => nomatch (ha.error e).2 h
    refine ⟨(hb hp).ok.trans (and_iff_right hp).symm, fun e => ?_⟩
    rw [or_iff_right (hr e), and_iff_right hp]
    exact (hb hp).error e

/-- A check of each item asks for the rule of each, and the first item that breaks its rule counts. -/
theorem Decides.forM {α : Type} {check : α → Except ε Unit} {rule : α → Prop}
    {rejects : α → ε → Prop} {xs : List α}
    (h : ∀ x ∈ xs, Decides (check x) (rule x) (rejects x)) :
    Decides (xs.forM check) (∀ x ∈ xs, rule x) fun e => ∃ before x after,
      xs = before ++ x :: after ∧ (∀ y ∈ before, rule y) ∧ rejects x e := by
  induction xs with
  | nil => exact decides_pass (List.forall_mem_nil _) fun e => by simp
  | cons x xs ih =>
    obtain ⟨hx, hxs⟩ := List.forall_mem_cons.1 h
    refine (hx.seq fun _ => ih hxs).congr List.forall_mem_cons.symm fun e => ?_
    constructor
    · rintro (hr | ⟨hrule, before, y, after, rfl, hbefore, hr⟩)
      · exact ⟨[], x, xs, rfl, List.forall_mem_nil _, hr⟩
      · exact ⟨x :: before, y, after, rfl, List.forall_mem_cons.2 ⟨hrule, hbefore⟩, hr⟩
    · rintro ⟨before, y, after, hsplit, hbefore, hr⟩
      cases before with
      | nil =>
        cases hsplit
        exact .inl hr
      | cons z before =>
        cases hsplit
        obtain ⟨hz, hbefore⟩ := List.forall_mem_cons.1 hbefore
        exact .inr ⟨hz, before, y, after, rfl, hbefore, hr⟩

end Checks

theorem Value.any_beq_iff {v : Value} {items : List Value} :
    items.any (v == ·) = true ↔ ∃ y ∈ items, (y == v) = true := by
  simp only [List.any_eq_true, beq_iff]
  exact exists_congr fun y => and_congr_right fun _ => ⟨compare_eq_symm, compare_eq_symm⟩

namespace Field

/-! ## Steps -/

section Steps

variable {f : Field} {v : Value}

theorem validateType_decides :
    Decides (f.validateType v) (v.kind ∈ f.type.kinds)
      fun r => v.kind ∉ f.type.kinds ∧ r = .wrongType f.type v.kind :=
  decides_ite mem_kinds_iff.symm _

/-- Checks a value against a bound that may be absent. -/
def checkBound {α : Type} (bound : Option α) (within : α → Prop) [DecidablePred within]
    (rejection : α → Rejection) : Except Rejection Unit :=
  match bound with
  | some b => if within b then .ok () else .error (rejection b)
  | none => .ok ()

theorem checkBound_decides {α : Type} {bound : Option α} {within : α → Prop}
    [DecidablePred within] {rejection : α → Rejection} :
    Decides (checkBound bound within rejection) (∀ b, bound = some b → within b)
      fun r => ∃ b, bound = some b ∧ ¬ within b ∧ r = rejection b := by
  cases bound with
  | none => exact decides_pass nofun nofun
  | some b => exact (decides_ite Iff.rfl _).congr (by simp) fun r => by simp

theorem validateBounds_eq (f : Field) (v : Value) :
    f.validateBounds v = (do
      checkBound f.min (v.compareBound? · ≠ some .lt) (.tooSmall v)
      checkBound f.max (v.compareBound? · ≠ some .gt) (.tooBig v)) := by
  unfold validateBounds checkBound
  cases f.min <;> cases f.max <;> simp only [ne_eq, ite_not, beq_iff_eq] <;> (repeat' split) <;> rfl

theorem validateBounds_decides :
    Decides (f.validateBounds v) (f.WithinBounds v) (OutOfBounds f v) := by
  rw [validateBounds_eq]
  refine (checkBound_decides.seq fun _ => checkBound_decides).congr Iff.rfl fun r => ?_
  constructor
  · rintro (⟨b, hb, h, rfl⟩ | ⟨hmin, b, hb, h, rfl⟩)
    · exact .small hb (not_not.1 h)
    · exact .big hmin hb (not_not.1 h)
  · rintro (⟨hb, h⟩ | ⟨hmin, hb, h⟩)
    · exact .inl ⟨_, hb, not_not.2 h, rfl⟩
    · exact .inr ⟨hmin, _, hb, not_not.2 h, rfl⟩

theorem validateLength_eq {n : Nat} (hs : f.type.isSized = true) (hn : v.length? = some n) :
    f.validateLength v = (do
      checkBound (some f.minLength) (fun m => m.toInt ≤ n) (.tooShort n)
      checkBound f.maxLength (fun m => (n : Int) ≤ m.toInt) (.tooLong n)) := by
  simp only [validateLength, hn, hs, checkBound, ← Int.not_lt, ite_not, Bool.not_true,
    Bool.false_eq_true, if_false]
  cases f.maxLength <;> split <;> rfl

theorem validateLength_decides :
    Decides (f.validateLength v) (f.LengthFits v) (WrongLength f v) := by
  cases hn : v.length? with
  | none =>
    unfold validateLength
    rw [hn]
    refine decides_pass (fun _ n h => ?_) ?_
    · cases hn.symm.trans h
    · rintro _ (⟨-, h, -⟩ | ⟨-, h, -⟩) <;> cases hn.symm.trans h
  | some n =>
    cases hs : f.type.isSized with
    | false =>
      unfold validateLength
      rw [hn, hs]
      refine decides_pass (fun h => ?_) ?_
      · cases hs.symm.trans h
      · rintro _ (⟨h, -⟩ | ⟨h, -⟩) <;> cases hs.symm.trans h
    | true =>
      rw [validateLength_eq hs hn]
      refine (checkBound_decides.seq fun _ => checkBound_decides).congr ?_ fun r => ⟨?_, ?_⟩
      · simp [LengthFits, hs, hn]
      · rintro (⟨b, hb, h, rfl⟩ | ⟨hmin, b, hb, h, rfl⟩)
        · cases hb
          exact .short hs hn (Int.not_le.1 h)
        · exact .long hs hn (hmin _ rfl) hb (Int.not_le.1 h)
      · rintro (⟨-, h, hlt⟩ | ⟨-, h, hmin, hm, hlt⟩) <;> cases hn.symm.trans h
        · exact .inl ⟨_, rfl, Int.not_le.2 hlt, rfl⟩
        · refine .inr ⟨fun b hb => ?_, _, hm, Int.not_le.2 hlt, rfl⟩
          cases hb
          exact hmin

theorem hasLineBreak_iff : hasLineBreak v = false ↔ v.IsLine := by
  have hbreak (s : String) : (s.toList.any fun c => c == '\n' || c == '\r') = false ↔
      '\n' ∉ s.toList ∧ '\r' ∉ s.toList := by
    simp only [List.any_eq_false, Bool.or_eq_true, beq_iff_eq]
    grind
  cases v with
  | text s => simp [hasLineBreak, Value.IsLine, Value.displayText?, -List.any_eq_false, hbreak]
  | message m => simp [hasLineBreak, Value.IsLine, Value.displayText?, -List.any_eq_false, hbreak]
  | _ => simp [hasLineBreak, Value.IsLine, Value.displayText?]

theorem dotsWithin_iff {s : String} : f.dotsWithin s = true ↔
    f.minDots.toInt ≤ s.toList.count '.' ∧
      ∀ m, f.maxDots = some m → (s.toList.count '.' : Int) ≤ m.toInt := by
  rw [dotsWithin]
  cases f.maxDots <;> simp

/-- The form of a text, which is known to hold no line break where it must not. -/
theorem validateText_text {s : String}
    (hl : (f.type.isLine && hasLineBreak (.text s)) = false) :
    Decides (f.validateText (.text s)) (f.TextFits s)
      fun r => ¬ f.TextFits s ∧ r = formRejection f.type s := by
  have hid : (isUri s || isDottedName s) = true ↔ IsUri s ∨ ∃ points, IsDottedName points s := by
    simp [isUri_iff, isDottedName_iff]
  have hname : (isDottedName s && f.dotsWithin s) = true ↔ ∃ points, IsDottedName points s ∧
      f.minDots.toInt ≤ points ∧ ∀ m, f.maxDots = some m → (points : Int) ≤ m.toInt := by
    simp [isDottedName_iff, dotsWithin_iff, and_assoc]
  have hascii : (s.toList.all fun c => c.toNat < 128) = true ↔ ∀ c ∈ s.toList, c.toNat < 128 := by
    simp
  unfold validateText TextFits formRejection
  simp only [hl, Bool.false_eq_true, if_false, Value.plainText?]
  cases f.type with
  | ascii | asciiLine => exact decides_ite hascii _
  | uri => exact decides_ite isUri_iff _
  | id => exact decides_ite hid _
  | dottedName => exact decides_ite hname _
  | _ => exact decides_pass trivial fun _ h => h.1 trivial

/-- The form of a text counts once the value is known to be a line. -/
theorem validateText_decides :
    Decides (f.validateText v) ((f.type.isLine = true → v.IsLine) ∧ ∀ s, v = .text s → f.TextFits s)
      (WrongForm f v) := by
  have hline : (f.type.isLine && hasLineBreak v) = false ↔ (f.type.isLine = true → v.IsLine) := by
    rw [← hasLineBreak_iff]
    simp
  by_cases hl : f.type.isLine = true → v.IsLine
  · cases v with
    | text s =>
      refine (validateText_text (hline.2 hl)).congr (by simpa using fun _ => hl) fun r => ⟨?_, ?_⟩
      · rintro ⟨h, rfl⟩
        exact .text hl rfl h
      · rintro (⟨hl', h⟩ | ⟨-, hs, h⟩)
        · exact absurd (hl hl') h
        · cases hs
          exact ⟨h, rfl⟩
    | _ =>
      unfold validateText
      rw [hline.2 hl]
      refine decides_pass ⟨hl, nofun⟩ ?_
      rintro _ (⟨hl', h⟩ | ⟨-, hs, -⟩)
      · exact h (hl hl')
      · cases hs
  · have hbreak : (f.type.isLine && hasLineBreak v) = true := by
      rw [← Bool.not_eq_false]
      exact mt hline.1 hl
    unfold validateText
    rw [hbreak]
    refine decides_fail (fun h => hl h.1) fun r => ⟨?_, ?_⟩
    · rintro (- | ⟨hl', -⟩)
      · rfl
      · exact absurd hl' hl
    · rintro rfl
      obtain ⟨htype, hv⟩ := Classical.not_imp.1 hl
      exact .line htype hv

theorem validateShallow_decides :
    Decides (f.validateShallow v) (f.Fits v) fun r =>
      v.kind ∉ f.type.kinds ∧ r = .wrongType f.type v.kind ∨ v.kind ∈ f.type.kinds ∧
        (OutOfBounds f v r ∨ f.WithinBounds v ∧ (WrongLength f v r ∨ f.LengthFits v ∧
          WrongForm f v r)) := by
  refine (validateType_decides.seq fun _ => validateBounds_decides.seq fun _ =>
    validateLength_decides.seq fun _ => validateText_decides).congr ?_ fun _ => Iff.rfl
  exact ⟨fun ⟨hk, hb, hl, hline, htext⟩ => ⟨hk, hb, hl, hline, htext⟩,
    fun ⟨hk, hb, hl, hline, htext⟩ => ⟨hk, hb, hl, hline, htext⟩⟩

/-! ## Items -/

/-- The search for a repeated item goes through the later items, and the earlier ones differ. -/
theorem repeated?_decides {earlier items : List Value} (h : Value.Distinct earlier) :
    Decides
      (match repeated? earlier items with
        | some x => .error (.notUnique x)
        | none => .ok ())
      (Value.Distinct (earlier ++ items))
      fun r : Rejection => ∃ before x after, items = before ++ x :: after ∧
        Value.Distinct (earlier ++ before) ∧ (∃ y ∈ earlier ++ before, (y == x) = true) ∧
          r = .notUnique x := by
  induction items generalizing earlier with
  | nil => exact decides_pass (by rwa [List.append_nil]) (by simp)
  | cons v vs ih =>
    have hcons (items : List Value) : earlier ++ v :: items = earlier ++ [v] ++ items :=
      List.append_cons ..
    rw [repeated?]
    by_cases hany : ∃ y ∈ earlier, (y == v) = true
    · rw [if_pos (Value.any_beq_iff.2 hany)]
      have hv (items : List Value) : ¬ Value.Distinct (earlier ++ v :: items) := fun hd => by
        obtain ⟨y, hy, hyv⟩ := hany
        rw [hcons] at hd
        rw [(Value.distinct_snoc.1 hd.of_append).2 y hy] at hyv
        cases hyv
      refine decides_fail (hv vs) fun r => ⟨?_, ?_⟩
      · rintro ⟨before, x, after, hitems, hbefore, -, rfl⟩
        cases before with
        | nil =>
          cases hitems
          rfl
        | cons w before =>
          cases hitems
          exact absurd hbefore (hv before)
      · rintro rfl
        exact ⟨[], v, vs, rfl, by rwa [List.append_nil], by rwa [List.append_nil], rfl⟩
    · rw [if_neg fun h => hany (Value.any_beq_iff.1 h)]
      have hsnoc : Value.Distinct (earlier ++ [v]) := Value.distinct_snoc.2 ⟨h, fun y hy => by
        rw [← Bool.not_eq_true]
        exact fun hyv => hany ⟨y, hy, hyv⟩⟩
      -- The item is one of the earlier ones from here on.
      refine (ih hsnoc).congr (by rw [← hcons]) fun r => ⟨?_, ?_⟩
      · rintro ⟨before, x, after, rfl, hbefore, hx, rfl⟩
        rw [← hcons] at hbefore hx
        exact ⟨v :: before, x, after, rfl, hbefore, hx, rfl⟩
      · rintro ⟨before, x, after, hitems, hbefore, hx, rfl⟩
        cases before with
        | nil =>
          cases hitems
          rw [List.append_nil] at hx
          exact absurd hx hany
        | cons w before =>
          cases hitems
          rw [hcons] at hbefore hx
          exact ⟨before, x, after, rfl, hbefore, hx, rfl⟩

theorem validateDistinct_decides {items : List Value} :
    Decides (f.validateDistinct items) (f.unique = true → Value.Distinct items)
      fun r => f.unique = true ∧ ∃ before x after, items = before ++ x :: after ∧
        Value.Distinct before ∧ (∃ y ∈ before, (y == x) = true) ∧ r = .notUnique x := by
  unfold validateDistinct
  cases f.unique with
  | false => exact decides_pass nofun fun _ h => nomatch h.1
  | true => exact (repeated?_decides .nil).congr (by simp) fun r => by simp

theorem validateTerm_decides :
    Decides (f.validateTerm v) (f.IsTerm v) fun r => ¬ f.IsTerm v ∧ r = .notInVocabulary v := by
  unfold validateTerm
  split
  · rename_i vocabulary htype hvocabulary
    refine decides_ite ⟨fun h _ _ hi => ?_, fun h => ?_⟩ _
    · cases hvocabulary.symm.trans hi
      simpa [Vocabulary.contains, Vocabulary.findValue?] using h
    · simpa [Vocabulary.contains, Vocabulary.findValue?] using h htype vocabulary hvocabulary
  · rename_i hno
    have hterm : f.IsTerm v := fun htype vocabulary hvocabulary =>
      (hno vocabulary htype hvocabulary).elim
    exact decides_pass hterm fun _ h => h.1 hterm

/-! ## The whole -/

/-- What is checked last: that the items of a sequence differ, or that a value without items is that
of a term. -/
def validateLast (f : Field) (v : Value) : Except Rejection Unit :=
  match v with
  | .list items | .tuple items => f.validateDistinct items
  | .set _ | .dict _ => .ok ()
  | v => f.validateTerm v

theorem validateItems_eq (item : Option Field) (items : List Value) :
    validateItems item items =
      (items.flatMap fun x => item.toList.map (·, x)).forM fun p => p.1.validate p.2 := by
  induction items with
  | nil => rw [validateItems]; rfl
  | cons x xs ih =>
    cases item <;> rw [validateItems, ih] <;> rfl

theorem validateEntries_eq (key item : Option Field) (entries : List (Value × Value)) :
    validateEntries key item entries =
      (entries.flatMap fun e => key.toList.map (·, e.1) ++ item.toList.map (·, e.2)).forM
        fun p => p.1.validate p.2 := by
  induction entries with
  | nil => rw [validateEntries]; rfl
  | cons e es ih =>
    cases key <;> cases item <;> rw [validateEntries, ih] <;> rfl

theorem validate_eq (f : Field) (v : Value) :
    f.validate v = (do
      f.validateShallow v
      (f.parts v).forM fun p => p.1.validate p.2
      f.validateLast v) := by
  cases v with
  | list items | tuple items =>
    rw [validate, validateItems_eq]
    rfl
  | set items =>
    rw [validate, validateItems_eq]
    exact congrArg (fun rest => f.validateShallow (.set items) >>= fun _ => rest)
      bind_pure_unit.symm
  | dict entries =>
    rw [validate, validateEntries_eq]
    exact congrArg (fun rest => f.validateShallow (.dict entries) >>= fun _ => rest)
      bind_pure_unit.symm
  | _ =>
    rw [validate]
    · rfl
    all_goals nofun

theorem validateLast_decides (hk : v.kind ∈ f.type.kinds) :
    Decides (f.validateLast v) (f.ItemsDiffer v ∧ f.IsTerm v) fun r =>
      (f.unique = true ∧ (v.kind = .list ∨ v.kind = .tuple) ∧ ∃ before x after,
        v.items = before ++ x :: after ∧ Value.Distinct before ∧
          (∃ y ∈ before, (y == x) = true) ∧ r = .notUnique x) ∨
      ¬ f.IsTerm v ∧ r = .notInVocabulary v := by
  have hterm := isTerm_of_isContainer hk
  cases v with
  | list items | tuple items =>
    have hterm := hterm rfl
    refine validateDistinct_decides.congr ?_ fun r => ?_
    · simp [ItemsDiffer, hterm, Value.kind, Value.items]
    · simp [hterm, Value.kind, Value.items]
  | set _ | dict _ =>
    have hterm := hterm rfl
    refine decides_pass ?_ ?_
    · simp [ItemsDiffer, hterm, Value.kind]
    · simp [hterm, Value.kind]
  | _ =>
    refine validateTerm_decides.congr ?_ fun r => ?_
    · simp [ItemsDiffer, Value.kind]
    · simp [Value.kind]

end Steps

/-- Validation accepts just the valid values, and gives just the rejections of the others. -/
theorem validate_decides (f : Field) (v : Value) :
    Decides (f.validate v) (Valid f v) (Rejects f v) := by
  rw [validate_eq]
  -- The recursion is on the value, since the field of a part may be any field.
  have hparts := Decides.forM fun p (hp : p ∈ f.parts v) =>
    have := sizeOf_lt_of_mem_parts hp
    validate_decides p.1 p.2
  refine (validateShallow_decides.seq fun hfits => hparts.seq fun _ =>
    validateLast_decides hfits.kind).congr valid_iff.symm fun r => ⟨?_, ?_⟩
  · rintro ((⟨hk, rfl⟩ | ⟨hk, h | ⟨hb, h | ⟨hl, h⟩⟩⟩) |
      ⟨fits, ⟨before, ⟨g, x⟩, after, hsplit, hbefore, h⟩ |
        ⟨hall, ⟨hu, hk, before, x, after, hitems, hbefore, h, rfl⟩ | ⟨h, rfl⟩⟩⟩)
    · exact .kind hk
    · exact .bounds hk h
    · exact .length hk hb h
    · exact .form hk hb hl h
    · exact .part fits hsplit hbefore h
    · exact .repeated fits hall hu hk hitems hbefore h
    · exact .term fits h
  · intro h
    cases h with
    | kind hk => exact .inl (.inl ⟨hk, rfl⟩)
    | bounds hk h => exact .inl (.inr ⟨hk, .inl h⟩)
    | length hk hb h => exact .inl (.inr ⟨hk, .inr ⟨hb, .inl h⟩⟩)
    | form hk hb hl h => exact .inl (.inr ⟨hk, .inr ⟨hb, .inr ⟨hl, h⟩⟩⟩)
    | part fits hsplit hbefore h => exact .inr ⟨fits, .inl ⟨_, _, _, hsplit, hbefore, h⟩⟩
    | repeated fits hall hu hk hitems hbefore h =>
      exact .inr ⟨fits, .inr ⟨hall, .inl ⟨hu, hk, _, _, _, hitems, hbefore, h, rfl⟩⟩⟩
    | term fits h =>
      have hscalar : v.isContainer = false := by
        rw [← Bool.not_eq_true]
        exact fun hc => h (isTerm_of_isContainer fits.kind hc)
      refine .inr ⟨fits, .inr ⟨?_, .inr ⟨h, rfl⟩⟩⟩
      rw [parts_of_scalar hscalar]
      exact List.forall_mem_nil _
termination_by sizeOf v

end Field
end ContentSchema
