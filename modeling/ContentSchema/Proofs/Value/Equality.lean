import ContentSchema.Document.Content
import ContentSchema.Proofs.Schema.Views
import Mathlib.Data.List.Pairwise

/-!
# One equality of values

The order of values is total, and values are equal when they compare as equal. Everything that asks
whether two values are the same asks for this equality: a set holds each of its items once
(`Value.holds_setOf`), so that sets are equal just if they hold equal items
(`Value.compareItems_eq_iff_holds`), a dict has the last value under each key (`Value.valueAt?_dictOf`),
a vocabulary has one term for a value (`Vocabulary.findValue?_eq_some_iff`), and a value is left out of
a document if it equals the missing value (`Document.encode_of_missingValue`).

Result: all of this together (`Value.compare_total`).
-/
namespace ContentSchema

open Std (OrientedCmp ReflCmp TransCmp)

namespace Value

theorem beq_iff {a b : Value} : (a == b) = true ↔ compare a b = .eq := by
  change (compare a b == .eq) = true ↔ _
  exact beq_iff_eq

theorem compare_eq_symm {a b : Value} (h : compare a b = .eq) : compare b a = .eq :=
  OrientedCmp.eq_symm h

/-! ## Sets -/

/-- Whether some item equals a value. -/
def Holds (items : List Value) (v : Value) : Prop := ∃ w ∈ items, compare w v = .eq

theorem holds_cons {w v : Value} {ws : List Value} :
    Holds (w :: ws) v ↔ compare w v = .eq ∨ Holds ws v := by
  simp [Holds]

theorem not_holds_nil (v : Value) : ¬ Holds [] v := by simp [Holds]

/-- A value that lies below all items equals none of them. -/
theorem not_holds_of_lt {items : List Value} {u v : Value} (h : ∀ w ∈ items, compare u w = .lt)
    (huv : compare u v = .eq) : ¬ Holds items v := by
  rintro ⟨w, hw, hwv⟩
  have huw := (TransCmp.congr_right hwv).trans huv
  rw [h w hw] at huw
  cases huw

theorem holds_insertItem (v x : Value) (ws : List Value) :
    Holds (insertItem v ws) x ↔ compare v x = .eq ∨ Holds ws x := by
  induction ws with
  | nil => exact holds_cons
  | cons w ws ih =>
    rw [insertItem]
    split
    · exact holds_cons
    · rename_i hvw
      rw [holds_cons, holds_cons, ← TransCmp.congr_left hvw, or_self_left]
    · rw [holds_cons, ih, holds_cons, or_left_comm]

theorem holds_foldl_insertItem (items ws : List Value) (x : Value) :
    Holds (items.foldl (fun s v => insertItem v s) ws) x ↔ Holds items x ∨ Holds ws x := by
  induction items generalizing ws with
  | nil => simp [not_holds_nil]
  | cons v items ih => rw [List.foldl_cons, ih, holds_insertItem, holds_cons, or_left_comm, or_assoc]

/-- A set holds what it was made from, in strict order, so that nothing is lost and nothing is held
twice. -/
theorem holds_setOf (items : List Value) :
    ∃ members, setOf items = .set members ∧ Ordered members ∧
      ∀ v, Holds members v ↔ Holds items v := by
  obtain ⟨members, hset, hordered, -⟩ := ordered_setOf items
  refine ⟨members, hset, hordered, fun v => ?_⟩
  cases hset
  rw [holds_foldl_insertItem, or_iff_left (not_holds_nil v)]

theorem compareItems_cons_eq_iff {a b : Value} {as bs : List Value} :
    compareItems (a :: as) (b :: bs) = .eq ↔ compare a b = .eq ∧ compareItems as bs = .eq := by
  rw [compareItems, Ordering.then_eq_eq]

theorem holds_of_compareItems {as bs : List Value} (h : compareItems as bs = .eq) (v : Value) :
    Holds as v ↔ Holds bs v := by
  induction as generalizing bs with
  | nil =>
    cases bs with
    | nil => exact Iff.rfl
    | cons b bs => cases h
  | cons a as ih =>
    cases bs with
    | nil => cases h
    | cons b bs =>
      obtain ⟨hab, h⟩ := compareItems_cons_eq_iff.1 h
      rw [holds_cons, holds_cons, TransCmp.congr_left hab, ih h]

/-- The first of some items in order is not above what they hold. -/
theorem isLE_of_holds {a v : Value} {as : List Value} (h : Ordered (a :: as))
    (hv : Holds (a :: as) v) : (compare a v).isLE := by
  rcases holds_cons.1 hv with hav | ⟨w, hw, hwv⟩
  · rw [hav]
    rfl
  · rw [← TransCmp.congr_right hwv, (List.pairwise_cons.1 h).1 w hw]
    rfl

/-- Sets are equal just if they hold equal values. -/
theorem compareItems_eq_iff_holds {as bs : List Value} (has : Ordered as) (hbs : Ordered bs) :
    compareItems as bs = .eq ↔ ∀ v, Holds as v ↔ Holds bs v := by
  refine ⟨holds_of_compareItems, fun h => ?_⟩
  induction as generalizing bs with
  | nil =>
    cases bs with
    | nil => rfl
    | cons b bs => exact absurd ((h b).2 (holds_cons.2 (.inl ReflCmp.compare_self))) (not_holds_nil b)
  | cons a as ih =>
    cases bs with
    | nil => exact absurd ((h a).1 (holds_cons.2 (.inl ReflCmp.compare_self))) (not_holds_nil a)
    | cons b bs =>
      obtain ⟨ha, has'⟩ := List.pairwise_cons.1 has
      obtain ⟨hb, hbs'⟩ := List.pairwise_cons.1 hbs
      -- each of the two least members is held by the other set, so neither lies above the other
      have hab : (compare a b).isLE :=
        isLE_of_holds has ((h b).2 (holds_cons.2 (.inl ReflCmp.compare_self)))
      have hba : (compare b a).isLE :=
        isLE_of_holds hbs ((h a).1 (holds_cons.2 (.inl ReflCmp.compare_self)))
      have heq : compare a b = .eq := OrientedCmp.isLE_antisymm hab hba
      refine compareItems_cons_eq_iff.2 ⟨heq, ih has' hbs' fun v => ?_⟩
      have hv := h v
      rw [holds_cons, holds_cons, ← TransCmp.congr_left heq] at hv
      by_cases hav : compare a v = .eq
      · have hbv : compare b v = .eq := by rw [← TransCmp.congr_left heq, hav]
        exact iff_of_false (not_holds_of_lt ha hav) (not_holds_of_lt hb hbv)
      · rwa [or_iff_right hav, or_iff_right hav] at hv

/-! ## Dicts -/

theorem valueAt?_append (es ds : List (Value × Value)) (key : Value) :
    valueAt? (es ++ ds) key = (valueAt? es key).or (valueAt? ds key) := by
  rw [valueAt?, List.find?_append]
  cases h : es.find? fun e => compare e.1 key == .eq <;> simp [valueAt?, h]

/-- Under each key a dict has the last of the values that it was given there. -/
theorem valueAt?_foldl_insertEntry_reverse (entries : List (Value × Value))
    {es : List (Value × Value)} (h : OrderedKeys es) (key : Value) :
    valueAt? (entries.foldl (fun d e => insertEntry e.1 e.2 d) es) key =
      (valueAt? entries.reverse key).or (valueAt? es key) := by
  induction entries generalizing es with
  | nil => rfl
  | cons e entries ih =>
    rw [List.foldl_cons, ih (orderedKeys_insertEntry e.1 e.2 h), List.reverse_cons, valueAt?_append,
      Option.or_assoc, valueAt?_insertEntry _ _ _ h, valueAt?_cons]
    congr 1
    split <;> rfl

theorem valueAt?_dictOf (entries : List (Value × Value)) :
    ∃ members, dictOf entries = .dict members ∧ OrderedKeys members ∧
      ∀ key, valueAt? members key = valueAt? entries.reverse key := by
  obtain ⟨members, hdict, hordered⟩ := orderedKeys_dictOf entries
  refine ⟨members, hdict, hordered, fun key => ?_⟩
  cases hdict
  rw [valueAt?_foldl_insertEntry_reverse entries .nil]
  exact Option.or_none

/-- An entry is added unless there is one under an equal key. -/
theorem length_insertEntry (k v : Value) {es : List (Value × Value)} (h : OrderedKeys es) :
    (insertEntry k v es).length =
      if (valueAt? es k).isSome = true then es.length else es.length + 1 := by
  induction es with
  | nil => rfl
  | cons e es ih =>
    obtain ⟨-, hes⟩ := List.pairwise_cons.1 h
    simp only [insertEntry]
    split
    · rename_i hk
      rw [valueAt?_eq_none (h.forall_lt hk)]
      rfl
    · rename_i hk
      rw [valueAt?_cons, if_pos (compare_eq_symm hk)]
      rfl
    · rename_i hk
      have hne : compare e.1 k ≠ .eq := by
        rw [OrientedCmp.lt_of_gt hk]
        decide
      rw [valueAt?_cons, if_neg hne, List.length_cons, List.length_cons, ih hes]
      split <;> rfl

theorem length_foldl_insertEntry (entries : List (Value × Value)) {es : List (Value × Value)}
    (h : OrderedKeys es) :
    (entries.foldl (fun d e => insertEntry e.1 e.2 d) es).length ≤ es.length + entries.length ∧
      ((entries.foldl (fun d e => insertEntry e.1 e.2 d) es).length = es.length + entries.length ↔
        (entries.Pairwise fun a b => compare a.1 b.1 ≠ .eq) ∧
          ∀ e ∈ entries, valueAt? es e.1 = none) := by
  induction entries generalizing es with
  | nil => simp
  | cons e entries ih =>
    obtain ⟨hle, hiff⟩ := ih (orderedKeys_insertEntry e.1 e.2 h)
    have hnone : (∀ d ∈ entries, valueAt? (insertEntry e.1 e.2 es) d.1 = none) ↔
        (∀ d ∈ entries, compare e.1 d.1 ≠ .eq) ∧ ∀ d ∈ entries, valueAt? es d.1 = none := by
      rw [← forall₂_and]
      refine forall₂_congr fun d _ => ?_
      rw [valueAt?_insertEntry _ _ _ h]
      split <;> simp [*]
    rw [hnone, length_insertEntry _ _ h] at hiff
    rw [length_insertEntry _ _ h] at hle
    rw [List.foldl_cons, List.pairwise_cons, List.forall_mem_cons, List.length_cons]
    cases hat : valueAt? es e.1 with
    | none =>
      simp only [hat, Option.isSome_none, Bool.false_eq_true, if_false] at hle hiff
      refine ⟨by omega, ?_⟩
      rw [← Nat.add_assoc, Nat.add_right_comm, hiff]
      tauto
    | some v =>
      simp only [hat, Option.isSome_some, if_true] at hle hiff
      refine ⟨by omega, iff_of_false (by omega) ?_⟩
      rintro ⟨-, hsome, -⟩
      cases hsome

/-- A dict has as many entries as it was made from just if no two keys of them are equal. -/
theorem length_dictOf_eq_iff (entries : List (Value × Value)) :
    ∃ members, dictOf entries = .dict members ∧
      (members.length = entries.length ↔
        entries.Pairwise fun a b => compare a.1 b.1 ≠ .eq) := by
  have hnone : OrderedKeys [] := .nil
  obtain ⟨-, hiff⟩ := length_foldl_insertEntry entries hnone
  refine ⟨_, rfl, ?_⟩
  rw [List.length_nil, Nat.zero_add] at hiff
  rw [hiff]
  simp [valueAt?]

end Value

/-! ## Vocabularies -/

instance : Std.Symm Term.Distinct where
  symm t u h := by
    refine ⟨?_, Ne.symm h.2⟩
    rw [Bool.eq_false_iff, Ne, Value.beq_iff]
    exact fun heq => Bool.eq_false_iff.1 h.1 (Value.beq_iff.2 (Value.compare_eq_symm heq))

/-- The term that is found is the one whose value equals the one looked up. -/
theorem Vocabulary.findValue?_eq_some_iff {vocabulary : Vocabulary} {v : Value} {t : Term} :
    vocabulary.findValue? v = some t ↔ t ∈ vocabulary.terms ∧ Value.compare t.value v = .eq := by
  constructor
  · intro h
    exact ⟨List.mem_of_find?_eq_some h,
      Value.beq_iff.1 (List.find?_some (p := fun u : Term => u.value == v) h)⟩
  · rintro ⟨hmem, heq⟩
    have hsome : (vocabulary.findValue? v).isSome = true :=
      List.find?_isSome.2 ⟨t, hmem, Value.beq_iff.2 heq⟩
    obtain ⟨u, hu⟩ := Option.isSome_iff_exists.1 hsome
    have huv : Value.compare u.value v = .eq :=
      Value.beq_iff.1 (List.find?_some (p := fun u : Term => u.value == v) hu)
    by_contra hne
    -- another term with an equal value would repeat it
    have hut : u ≠ t := fun h => hne (h ▸ hu)
    have hdistinct := vocabulary.distinct.forall (List.mem_of_find?_eq_some hu) hmem hut
    refine Bool.eq_false_iff.1 hdistinct.1 (Value.beq_iff.2 ?_)
    rw [TransCmp.congr_left huv]
    exact Value.compare_eq_symm heq

/-! ## Missing values -/

/-- A value is left out of a document if it equals the missing value, and otherwise written as if
there were none. -/
theorem Document.encode_of_missingValue {f : Field} {m : Value} (h : f.missingValue = some m)
    (tag : String) (v : Value) :
    encode false f tag v =
      if Value.compare m v = .eq then .ok { tag }
      else encode false { f with missingValue := none } tag v := by
  have hmissing : (!false && f.missingValue == some v) = (Value.compare m v == .eq) := by
    rw [h]
    rfl
  by_cases heq : Value.compare m v = .eq
  · have htrue : (!false && f.missingValue == some v) = true := by rw [hmissing, heq]; rfl
    rw [if_pos heq]
    cases v <;> simp only [encode, htrue, if_true]
  · have hfalse : (!false && f.missingValue == some v) = false := by
      rw [hmissing]
      exact beq_false_of_ne heq
    rw [if_neg heq]
    cases v <;> simp only [encode, hfalse] <;> rfl

namespace Value

/-- The order of values is total, and its equality is the one that values have: to exchange two values
reverses it, it is transitive, and values that compare as equal compare alike with all others. By this
equality a set holds each of its items once, sets are equal just if they hold equal items, a dict has
the last value under each key, a vocabulary has the one term of a value, and a value is left out of a
document if it equals the missing value. -/
theorem compare_total :
    (∀ a b : Value, compare b a = (compare a b).swap) ∧
    (∀ a b c : Value, compare a b ≠ .gt → compare b c ≠ .gt → compare a c ≠ .gt) ∧
    Equivalence (fun a b : Value => compare a b = .eq) ∧
    (∀ a b c : Value, compare a b = .eq →
      compare a c = compare b c ∧ compare c a = compare c b) ∧
    (∀ a b : Value, (a == b) = true ↔ compare a b = .eq) ∧
    (∀ items, ∃ members, setOf items = .set members ∧ Ordered members ∧
      ∀ v, Holds members v ↔ Holds items v) ∧
    (∀ items others, compare (setOf items) (setOf others) = .eq ↔
      ∀ v, Holds items v ↔ Holds others v) ∧
    (∀ entries, ∃ members, dictOf entries = .dict members ∧ OrderedKeys members ∧
      ∀ key, valueAt? members key = valueAt? entries.reverse key) ∧
    (∀ (vocabulary : Vocabulary) v t, vocabulary.findValue? v = some t ↔
      t ∈ vocabulary.terms ∧ compare t.value v = .eq) ∧
    (∀ (f : Field) m tag v, f.missingValue = some m →
      Document.encode false f tag v =
        if compare m v = .eq then .ok { tag }
        else Document.encode false { f with missingValue := none } tag v) := by
  refine ⟨fun a b => OrientedCmp.eq_swap, fun a b c hab hbc => ?_,
    ⟨fun _ => ReflCmp.compare_self, compare_eq_symm, TransCmp.eq_trans⟩,
    fun a b c h => ⟨TransCmp.congr_left h, TransCmp.congr_right h⟩, fun _ _ => beq_iff, holds_setOf,
    fun items others => ?_, valueAt?_dictOf, fun _ _ _ => Vocabulary.findValue?_eq_some_iff,
    fun f m tag v h => Document.encode_of_missingValue h tag v⟩
  · exact Ordering.isLE_iff_ne_gt.1 (TransCmp.isLE_trans (Ordering.isLE_iff_ne_gt.2 hab)
      (Ordering.isLE_iff_ne_gt.2 hbc))
  · obtain ⟨members, hset, hordered, hholds⟩ := holds_setOf items
    obtain ⟨members', hset', hordered', hholds'⟩ := holds_setOf others
    rw [hset, hset', compare, compareItems_eq_iff_holds hordered hordered']
    simp only [hholds, hholds']

/-- A dict with one price. -/
def priceList (price : Decimal) : Value := .dict [(.tuple [.text "price"], .decimal price)]

/-- A price with one decimal place. -/
def shortPrice : Value := priceList ⟨15, 1, by decide, by decide⟩

/-- The same price with two decimal places. -/
def longPrice : Value := priceList ⟨150, 2, by decide, by decide⟩

theorem compare_total_prices :
    compare shortPrice longPrice = .eq ∧ compare (.list [shortPrice]) (.set []) ≠ .gt ∧
      compare (.set []) (.set [longPrice]) ≠ .gt ∧
      compare (.list [shortPrice]) (.set [longPrice]) ≠ .gt ∧
      compare (setOf [shortPrice, .bool true, longPrice]) (setOf [.bool true, shortPrice]) = .eq ∧
      Document.encode false { Field.ofType .dict with missingValue := some shortPrice } "missing"
        longPrice = .ok { tag := "missing" } := by
  have heq : compare shortPrice longPrice = .eq := by decide
  have hlist : compare (.list [shortPrice]) (.set []) ≠ .gt := by decide
  have hset : compare (.set []) (.set [longPrice]) ≠ .gt := by decide
  obtain ⟨-, htrans, -, -, -, -, hsets, -, -, hmissing⟩ := compare_total
  refine ⟨heq, hlist, hset, htrans _ _ _ hlist hset, (hsets _ _).2 fun v => ?_, ?_⟩
  · simp only [holds_cons, TransCmp.congr_left heq]
    tauto
  · rw [hmissing _ shortPrice _ _ rfl, if_pos heq]

end Value
end ContentSchema
