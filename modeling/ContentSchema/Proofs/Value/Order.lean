import ContentSchema.Value.Order

/-!
# The order of values is an order

`Value.compare` is oriented and transitive (`Value.instTransCmp`). So a set is in strict order
however it is built (`Value.ordered_setOf`), and building a set or dict from members that are in
strict order already changes nothing (`Value.setOf_of_ordered`, `Value.dictOf_of_ordered`).
-/
namespace ContentSchema

open Std (OrientedCmp TransCmp OrientedOrd TransOrd)

/-! ## Scalars -/

instance : TransCmp Message.compare :=
  inferInstanceAs (TransCmp (compareLex (compareOn Message.id)
    (compareLex (compareOn Message.default) (compareOn Message.domain))))

instance : TransCmp compareBytes :=
  inferInstanceAs (TransCmp (compareOn fun b : ByteArray => b.data.toList))

instance : TransCmp Binary64.totalCompare :=
  inferInstanceAs (TransCmp (compareOn Binary64.totalKey))

instance : TransCmp Date.compare :=
  inferInstanceAs (TransCmp (compareLex (compareOn Date.year)
    (compareLex (compareOn Date.month) (compareOn Date.day))))

instance : TransCmp fun a b : Datetime => a.date.compare b.date where
  eq_swap {a b} := @OrientedCmp.eq_swap _ Date.compare _ a.date b.date
  isLE_trans {a b c} := @TransCmp.isLE_trans _ Date.compare _ a.date b.date c.date

instance : TransCmp Datetime.compare :=
  inferInstanceAs (TransCmp (compareLex (fun a b : Datetime => a.date.compare b.date)
    (compareLex (compareOn Datetime.secondOfDay) (compareOn Datetime.nanos))))

namespace Decimal

/-- The number as a count of the least decimal places there are. -/
def places (a : Decimal) : Int := a.coefficient * Nat.pow 10 (maxScale - a.scale)

theorem compare_mul_pos {a b k : Int} (hk : 0 < k) :
    Ord.compare (a * k) (b * k) = Ord.compare a b := by
  rcases Int.lt_trichotomy a b with h | h | h
  · rw [Int.compare_eq_lt.2 h, Int.compare_eq_lt.2 (Int.mul_lt_mul_of_pos_right h hk)]
  · rw [h]
    simp
  · rw [Int.compare_eq_gt.2 h, Int.compare_eq_gt.2 (Int.mul_lt_mul_of_pos_right h hk)]

theorem pow_mul_pow_sub {n : Nat} (hn : n ≤ maxScale) :
    (Nat.pow 10 n : Int) * Nat.pow 10 (maxScale - n) = Nat.pow 10 maxScale := by
  rw [← Int.natCast_mul]
  congr 1
  exact (Nat.pow_add 10 n (maxScale - n)).symm.trans (by rw [Nat.add_sub_cancel' hn]; rfl)

theorem compare_eq_places (a b : Decimal) : a.compare b = Ord.compare a.places b.places := by
  have hpos (n : Nat) : (0 : Int) < Nat.pow 10 n :=
    Int.natCast_pos.2 (Nat.pow_pos (by decide))
  have ha := pow_mul_pow_sub a.scale_le
  have hb := pow_mul_pow_sub b.scale_le
  have hleft : a.coefficient * Nat.pow 10 b.scale *
      (Nat.pow 10 (maxScale - a.scale) * Nat.pow 10 (maxScale - b.scale)) =
        a.places * Nat.pow 10 maxScale := by
    rw [← hb, places]
    ac_rfl
  have hright : b.coefficient * Nat.pow 10 a.scale *
      (Nat.pow 10 (maxScale - a.scale) * Nat.pow 10 (maxScale - b.scale)) =
        b.places * Nat.pow 10 maxScale := by
    rw [← ha, places]
    ac_rfl
  rw [compare, ← compare_mul_pos (Int.mul_pos (hpos (maxScale - a.scale))
    (hpos (maxScale - b.scale))), hleft, hright, compare_mul_pos (hpos maxScale)]

instance : TransCmp Decimal.compare := by
  have h : Decimal.compare = compareOn places := by
    funext a b
    exact compare_eq_places a b
  rw [h]
  infer_instance

end Decimal

/-! ## Lexicographic steps -/

/-- Between three in order, the comparison of the outer ones is that of the first step that is
strict. -/
theorem compare_eq_then {α : Type} {cmp : α → α → Ordering} [TransCmp cmp] {a b c : α}
    (hab : (cmp a b).isLE) (hbc : (cmp b c).isLE) : cmp a c = (cmp a b).then (cmp b c) := by
  cases h : cmp a b with
  | lt => rw [TransCmp.lt_of_lt_of_isLE h hbc, Ordering.lt_then]
  | eq => rw [TransCmp.congr_left h, Ordering.eq_then]
  | gt => simp [h] at hab

/-- What `compare_eq_then` says of three comparisons. -/
def Chains (ab bc ac : Ordering) : Prop := ab.isLE → bc.isLE → ac = ab.then bc

theorem chains_of_transCmp {α : Type} (cmp : α → α → Ordering) [TransCmp cmp] (a b c : α) :
    Chains (cmp a b) (cmp b c) (cmp a c) := compare_eq_then

theorem Chains.then {ab bc ac ab' bc' ac' : Ordering} (h : Chains ab bc ac)
    (h' : Chains ab' bc' ac') : Chains (ab.then ab') (bc.then bc') (ac.then ac') := by
  intro hab hbc
  cases ab <;> cases bc <;> cases ab' <;> simp_all [Chains]

namespace Value

theorem compare_of_kind_ne {a b : Value} (h : a.kind ≠ b.kind) :
    compare a b = Ord.compare a.kind.rank b.kind.rank := by
  cases a <;> cases b <;> first | rfl | exact absurd rfl h

theorem Kind.rank_injective {a b : Kind} (h : a.rank = b.rank) : a = b := by
  cases a <;> cases b <;> first | rfl | cases h

mutual

theorem compare_swap (a b : Value) : compare a b = (compare b a).swap := by
  by_cases h : a.kind = b.kind
  · cases a <;> cases b <;> first | exact Kind.noConfusion h | clear h
    case pos.list.list a b => exact compareItems_swap a b
    case pos.tuple.tuple a b => exact compareItems_swap a b
    case pos.set.set a b => exact compareItems_swap a b
    case pos.dict.dict a b => exact compareEntries_swap a b
    case pos.float.float => exact @OrientedCmp.eq_swap _ Binary64.totalCompare _ _ _
    case pos.decimal.decimal => exact @OrientedCmp.eq_swap _ Decimal.compare _ _ _
    case pos.message.message => exact @OrientedCmp.eq_swap _ Message.compare _ _ _
    case pos.bytes.bytes => exact @OrientedCmp.eq_swap _ compareBytes _ _ _
    case pos.date.date => exact @OrientedCmp.eq_swap _ Date.compare _ _ _
    case pos.datetime.datetime => exact @OrientedCmp.eq_swap _ Datetime.compare _ _ _
    all_goals exact OrientedOrd.eq_swap
  · rw [compare_of_kind_ne h, compare_of_kind_ne (Ne.symm h)]
    exact OrientedOrd.eq_swap

theorem compareItems_swap (as bs : List Value) :
    compareItems as bs = (compareItems bs as).swap := by
  match as, bs with
  | [], [] => rfl
  | [], _ :: _ => rfl
  | _ :: _, [] => rfl
  | a :: as, b :: bs =>
    simp only [compareItems, Ordering.swap_then]
    rw [← compare_swap a b, ← compareItems_swap as bs]

theorem compareEntries_swap (as bs : List (Value × Value)) :
    compareEntries as bs = (compareEntries bs as).swap := by
  match as, bs with
  | [], [] => rfl
  | [], _ :: _ => rfl
  | _ :: _, [] => rfl
  | (k, v) :: as, (l, w) :: bs =>
    simp only [compareEntries, Ordering.swap_then]
    rw [← compare_swap k l, ← compare_swap v w, ← compareEntries_swap as bs]

end

theorem rank_le_of_isLE {a b : Value} (h : (compare a b).isLE) : a.kind.rank ≤ b.kind.rank := by
  by_cases hk : a.kind = b.kind
  · exact Nat.le_of_eq (congrArg Kind.rank hk)
  · rw [compare_of_kind_ne hk] at h
    exact Nat.isLE_compare.1 h

theorem compare_eq_lt_of_rank {a b : Value} (h : a.kind.rank < b.kind.rank) :
    compare a b = .lt := by
  rw [compare_of_kind_ne fun hk => by rw [hk] at h; exact Nat.lt_irrefl _ h]
  exact Nat.compare_eq_lt.2 h

theorem rank_lt_of_kind_ne {a b : Value} (hk : a.kind ≠ b.kind) (h : (compare a b).isLE) :
    a.kind.rank < b.kind.rank :=
  Nat.lt_of_le_of_ne (rank_le_of_isLE h) fun hr => hk (Kind.rank_injective hr)

/-- Values of several kinds are in the order of the kinds. -/
theorem compare_chains_of_kind_ne {a b c : Value} (h : a.kind ≠ b.kind ∨ b.kind ≠ c.kind) :
    Chains (compare a b) (compare b c) (compare a c) := by
  intro hab hbc
  have hle := rank_le_of_isLE hab
  have hle' := rank_le_of_isLE hbc
  rcases h with h | h
  · have hlt := rank_lt_of_kind_ne h hab
    rw [compare_eq_lt_of_rank hlt, compare_eq_lt_of_rank (Nat.lt_of_lt_of_le hlt hle')]
    rfl
  · have hlt := rank_lt_of_kind_ne h hbc
    rw [compare_eq_lt_of_rank hlt, compare_eq_lt_of_rank (Nat.lt_of_le_of_lt hle hlt)]
    cases hc : compare a b with
    | lt => rfl
    | eq => rfl
    | gt => simp [hc] at hab

mutual

theorem compare_chains (a b c : Value) :
    Chains (compare a b) (compare b c) (compare a c) := by
  by_cases hab : a.kind = b.kind
  · by_cases hbc : b.kind = c.kind
    · cases a <;> cases b <;> first | exact Kind.noConfusion hab | clear hab
      all_goals cases c <;> first | exact Kind.noConfusion hbc | clear hbc
      case pos.list.list.list a b c => exact compareItems_chains a b c
      case pos.tuple.tuple.tuple a b c => exact compareItems_chains a b c
      case pos.set.set.set a b c => exact compareItems_chains a b c
      case pos.dict.dict.dict a b c => exact compareEntries_chains a b c
      case pos.float.float.float => exact chains_of_transCmp Binary64.totalCompare _ _ _
      case pos.decimal.decimal.decimal => exact chains_of_transCmp Decimal.compare _ _ _
      case pos.message.message.message => exact chains_of_transCmp Message.compare _ _ _
      case pos.bytes.bytes.bytes => exact chains_of_transCmp compareBytes _ _ _
      case pos.date.date.date => exact chains_of_transCmp Date.compare _ _ _
      case pos.datetime.datetime.datetime => exact chains_of_transCmp Datetime.compare _ _ _
      all_goals exact chains_of_transCmp Ord.compare _ _ _
    · exact compare_chains_of_kind_ne (.inr hbc)
  · exact compare_chains_of_kind_ne (.inl hab)

theorem compareItems_chains (as bs cs : List Value) :
    Chains (compareItems as bs) (compareItems bs cs) (compareItems as cs) := by
  match as, bs, cs with
  | [], [], [] => exact fun _ _ => rfl
  | [], [], _ :: _ => exact fun _ _ => rfl
  | [], _ :: _, [] => exact fun _ h => nomatch h
  | [], _ :: _, _ :: _ => exact fun _ _ => rfl
  | _ :: _, [], _ => exact fun h _ => nomatch h
  | _ :: _, _ :: _, [] => exact fun _ h => nomatch h
  | a :: as, b :: bs, c :: cs =>
    exact (compare_chains a b c).then (compareItems_chains as bs cs)

theorem compareEntries_chains (as bs cs : List (Value × Value)) :
    Chains (compareEntries as bs) (compareEntries bs cs) (compareEntries as cs) := by
  match as, bs, cs with
  | [], [], [] => exact fun _ _ => rfl
  | [], [], _ :: _ => exact fun _ _ => rfl
  | [], _ :: _, [] => exact fun _ h => nomatch h
  | [], _ :: _, _ :: _ => exact fun _ _ => rfl
  | _ :: _, [], _ => exact fun h _ => nomatch h
  | _ :: _, _ :: _, [] => exact fun _ h => nomatch h
  | (k, v) :: as, (l, w) :: bs, (m, x) :: cs =>
    exact ((compare_chains k l m).then (compare_chains v w x)).then
      (compareEntries_chains as bs cs)

end

/-- The order of values is oriented and transitive. -/
instance instTransCmp : TransCmp compare where
  eq_swap {a b} := compare_swap a b
  isLE_trans {a b c} hab hbc := by
    rw [compare_chains a b c hab hbc]
    cases h : compare a b with
    | lt => rfl
    | eq => exact hbc
    | gt => simp [h] at hab

/-! ## Sets -/

/-- Values in strict order. -/
def Ordered (items : List Value) : Prop := items.Pairwise fun a b => compare a b = .lt

theorem insertItem_of_forall_lt {v : Value} {ws : List Value}
    (h : ∀ w ∈ ws, compare w v = .lt) : insertItem v ws = ws ++ [v] := by
  induction ws with
  | nil => rfl
  | cons w ws ih =>
    have hw : compare v w = .gt := OrientedCmp.gt_of_lt (h w (.head _))
    rw [insertItem, hw, List.cons_append]
    simp only
    rw [ih fun x hx => h x (.tail _ hx)]

theorem foldl_insertItem_of_ordered {ws items : List Value} (h : Ordered (ws ++ items)) :
    items.foldl (fun s v => insertItem v s) ws = ws ++ items := by
  induction items generalizing ws with
  | nil => simp
  | cons v items ih =>
    have hv : ∀ w ∈ ws, compare w v = .lt := fun w hw =>
      (List.pairwise_append.1 h).2.2 w hw v (.head _)
    have h' : Ordered ((ws ++ [v]) ++ items) := by rwa [List.append_assoc]
    rw [List.foldl_cons, insertItem_of_forall_lt hv, ih h', List.append_assoc]
    rfl

/-- The set of members in strict order has just them. -/
theorem setOf_of_ordered {items : List Value} (h : Ordered items) : setOf items = .set items := by
  rw [setOf, foldl_insertItem_of_ordered (show Ordered ([] ++ items) from h), List.nil_append]

theorem mem_of_mem_insertItem {v x : Value} {ws : List Value} (h : x ∈ insertItem v ws) :
    x = v ∨ x ∈ ws := by
  induction ws with
  | nil => exact .inl (List.mem_singleton.1 h)
  | cons w ws ih =>
    simp only [insertItem] at h
    split at h
    · exact List.mem_cons.1 h
    · exact (List.mem_cons.1 h).imp_right (.tail _)
    · rcases List.mem_cons.1 h with rfl | h
      · exact .inr (.head _)
      · exact (ih h).imp_right (.tail _)

theorem ordered_insertItem (v : Value) {ws : List Value} (h : Ordered ws) :
    Ordered (insertItem v ws) := by
  induction ws with
  | nil => exact List.pairwise_singleton _ _
  | cons w ws ih =>
    obtain ⟨hw, hws⟩ := List.pairwise_cons.1 h
    simp only [insertItem]
    split
    · rename_i hc
      refine List.pairwise_cons.2 ⟨fun x hx => ?_, h⟩
      rcases List.mem_cons.1 hx with rfl | hx
      · exact hc
      · exact TransCmp.lt_trans hc (hw x hx)
    · rename_i hc
      exact List.pairwise_cons.2 ⟨fun x hx => TransCmp.lt_of_eq_of_lt hc (hw x hx), hws⟩
    · rename_i hc
      refine List.pairwise_cons.2 ⟨fun x hx => ?_, ih hws⟩
      rcases mem_of_mem_insertItem hx with rfl | hx
      · exact OrientedCmp.lt_of_gt hc
      · exact hw x hx

theorem foldl_insertItem {ws items : List Value} (h : Ordered ws) :
    Ordered (items.foldl (fun s v => insertItem v s) ws) ∧
      ∀ x ∈ items.foldl (fun s v => insertItem v s) ws, x ∈ items ∨ x ∈ ws := by
  induction items generalizing ws with
  | nil => exact ⟨h, fun x hx => .inr hx⟩
  | cons v items ih =>
    obtain ⟨ho, hm⟩ := ih (ordered_insertItem v h)
    refine ⟨ho, fun x hx => ?_⟩
    rcases hm x hx with hx | hx
    · exact .inl (.tail _ hx)
    · rcases mem_of_mem_insertItem hx with rfl | hx
      · exact .inl (.head _)
      · exact .inr hx

/-- The members of a set are among the values it was made from, in strict order. -/
theorem ordered_setOf (items : List Value) :
    ∃ members, setOf items = .set members ∧ Ordered members ∧ ∀ x ∈ members, x ∈ items := by
  obtain ⟨ho, hm⟩ := foldl_insertItem (List.Pairwise.nil : Ordered [])
  exact ⟨_, rfl, ho, fun x hx => (hm x hx).resolve_right List.not_mem_nil⟩

/-! ## Dicts -/

/-- Entries with their keys in strict order. -/
def OrderedKeys (entries : List (Value × Value)) : Prop :=
  entries.Pairwise fun a b => compare a.1 b.1 = .lt

theorem insertEntry_of_forall_lt {k v : Value} {es : List (Value × Value)}
    (h : ∀ e ∈ es, compare e.1 k = .lt) : insertEntry k v es = es ++ [(k, v)] := by
  induction es with
  | nil => rfl
  | cons e es ih =>
    have he : compare k e.1 = .gt := OrientedCmp.gt_of_lt (h e (.head _))
    rw [insertEntry, he, List.cons_append]
    simp only
    rw [ih fun d hd => h d (.tail _ hd)]

theorem foldl_insertEntry_of_ordered {es entries : List (Value × Value)}
    (h : OrderedKeys (es ++ entries)) :
    entries.foldl (fun d e => insertEntry e.1 e.2 d) es = es ++ entries := by
  induction entries generalizing es with
  | nil => simp
  | cons e entries ih =>
    have he : ∀ d ∈ es, compare d.1 e.1 = .lt := fun d hd =>
      (List.pairwise_append.1 h).2.2 d hd e (.head _)
    have h' : OrderedKeys ((es ++ [e]) ++ entries) := by rwa [List.append_assoc]
    rw [List.foldl_cons, insertEntry_of_forall_lt he, ih h', List.append_assoc]
    rfl

/-- The dict of entries with their keys in strict order has just them. -/
theorem dictOf_of_ordered {entries : List (Value × Value)} (h : OrderedKeys entries) :
    dictOf entries = .dict entries := by
  rw [dictOf, foldl_insertEntry_of_ordered (show OrderedKeys ([] ++ entries) from h), List.nil_append]

theorem of_mem_insertEntry {k v : Value} {es : List (Value × Value)} {d : Value × Value}
    (h : d ∈ insertEntry k v es) :
    (d.1 = k ∨ ∃ e ∈ es, d.1 = e.1) ∧ (d.2 = v ∨ ∃ e ∈ es, d.2 = e.2) := by
  induction es with
  | nil =>
    cases List.mem_singleton.1 h
    exact ⟨.inl rfl, .inl rfl⟩
  | cons e es ih =>
    have hin (c : Value × Value) (hc : c ∈ e :: es) (heq : d = c) :
        (d.1 = k ∨ ∃ e' ∈ e :: es, d.1 = e'.1) ∧ (d.2 = v ∨ ∃ e' ∈ e :: es, d.2 = e'.2) :=
      ⟨.inr ⟨c, hc, heq ▸ rfl⟩, .inr ⟨c, hc, heq ▸ rfl⟩⟩
    rw [insertEntry] at h
    split at h
    · rcases List.mem_cons.1 h with rfl | h
      · exact ⟨.inl rfl, .inl rfl⟩
      · exact hin d h rfl
    · rcases List.mem_cons.1 h with rfl | h
      · exact ⟨.inr ⟨e, .head _, rfl⟩, .inl rfl⟩
      · exact hin d (.tail _ h) rfl
    · rcases List.mem_cons.1 h with rfl | h
      · exact hin _ (.head _) rfl
      · obtain ⟨hk, hv⟩ := ih h
        exact ⟨hk.imp_right fun ⟨c, hc, h⟩ => ⟨c, .tail _ hc, h⟩,
          hv.imp_right fun ⟨c, hc, h⟩ => ⟨c, .tail _ hc, h⟩⟩

/-- The keys and the values of a dict are among those that it was made from. -/
theorem exists_dictOf (entries : List (Value × Value)) :
    ∃ members, dictOf entries = .dict members ∧
      ∀ d ∈ members, (∃ e ∈ entries, d.1 = e.1) ∧ ∃ e ∈ entries, d.2 = e.2 := by
  have key (es : List (Value × Value)) :
      ∀ d ∈ entries.foldl (fun d e => insertEntry e.1 e.2 d) es,
        (∃ e ∈ es ++ entries, d.1 = e.1) ∧ ∃ e ∈ es ++ entries, d.2 = e.2 := by
    induction entries generalizing es with
    | nil =>
      intro d hd
      rw [List.append_nil]
      exact ⟨⟨d, hd, rfl⟩, d, hd, rfl⟩
    | cons e entries ih =>
      intro d hd
      have hmem {P : Value × Value → Prop} (h : ∃ c ∈ insertEntry e.1 e.2 es ++ entries, P c)
          (hP : ∀ c ∈ insertEntry e.1 e.2 es, P c → ∃ c ∈ es ++ e :: entries, P c) :
          ∃ c ∈ es ++ e :: entries, P c := by
        obtain ⟨c, hc, hPc⟩ := h
        rcases List.mem_append.1 hc with hc | hc
        · exact hP c hc hPc
        · exact ⟨c, List.mem_append_right _ (.tail _ hc), hPc⟩
      obtain ⟨hk, hv⟩ := ih (insertEntry e.1 e.2 es) d hd
      refine ⟨hmem hk fun c hc heq => ?_, hmem hv fun c hc heq => ?_⟩
      · rcases (of_mem_insertEntry hc).1 with h | ⟨c', hc', h⟩
        · exact ⟨e, List.mem_append_right _ (.head _), heq.trans h⟩
        · exact ⟨c', List.mem_append_left _ hc', heq.trans h⟩
      · rcases (of_mem_insertEntry hc).2 with h | ⟨c', hc', h⟩
        · exact ⟨e, List.mem_append_right _ (.head _), heq.trans h⟩
        · exact ⟨c', List.mem_append_left _ hc', heq.trans h⟩
  exact ⟨_, rfl, key []⟩

end Value

end ContentSchema
