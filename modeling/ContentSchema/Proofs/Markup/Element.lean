import ContentSchema.Markup.Element
import ContentSchema.Proofs.Markup.Name
import Mathlib.Algebra.GroupWithZero.Nat
import Mathlib.Data.List.Nodup

/-!
# Elements and their attributes

Equality of elements is decidable. What setting an attribute does to the attributes of an element is
said by `Element.get?_set`. Elements with
plain names for tags are elements of the model. `Element.Inside` says which elements a tree holds, and
`Element.count` how many there are.
-/
namespace ContentSchema.Markup

namespace Element

/-! ## Equality -/

mutual

/-- Decides whether two elements are equal. -/
def decEq : (e e' : Element) → Decidable (e = e')
  | ⟨tag, attributes, children, text, line, namespaces⟩,
    ⟨tag', attributes', children', text', line', namespaces'⟩ =>
    match decEqAll children children' with
    | .isTrue h => decidable_of_iff
        ((tag, attributes, text, line, namespaces) = (tag', attributes', text', line', namespaces'))
        (by simp [h])
    | .isFalse h => .isFalse (by simp [h])

/-- Decides whether two lists of elements are equal. -/
def decEqAll : (es es' : List Element) → Decidable (es = es')
  | [], [] => .isTrue rfl
  | [], _ :: _ => .isFalse nofun
  | _ :: _, [] => .isFalse nofun
  | e :: es, e' :: es' =>
    match decEq e e', decEqAll es es' with
    | .isTrue h, .isTrue hs => .isTrue (by rw [h, hs])
    | .isFalse h, _ => .isFalse fun heq => h (List.cons.inj heq).1
    | _, .isFalse hs => .isFalse fun heq => hs (List.cons.inj heq).2

end

instance : DecidableEq Element := decEq

/-! ## Attributes -/

theorem find?_setPair (name other value : String) (ps : List (String × String)) :
    ((setPair name value ps).find? (·.1 == other)).map (·.2) =
      if name = other then some value else (ps.find? (·.1 == other)).map (·.2) := by
  induction ps with
  | nil => by_cases h : name = other <;> simp [setPair, h]
  | cons p ps ih =>
    by_cases hp : p.1 = name
    · have hset : setPair name value (p :: ps) = (p.1, value) :: ps := by simp [setPair, hp]
      rw [hset]
      by_cases h : name = other
      · simp [hp, h]
      · have : ¬ p.1 = other := fun he => h (hp.symm.trans he)
        simp [h, this]
    · have hset : setPair name value (p :: ps) = p :: setPair name value ps := by simp [setPair, hp]
      rw [hset]
      by_cases h : p.1 = other
      · have : ¬ name = other := fun he => hp (h.trans he.symm)
        simp [h, this]
      · simp [h, ih]

/-- Setting an attribute leaves the others alone. -/
theorem get?_set (e : Element) (name other value : String) :
    (e.set name value).get? other = if name = other then some value else e.get? other :=
  find?_setPair name other value e.attributes

/-- An attribute that an element does not have is added after the others. -/
theorem set_of_get?_eq_none {e : Element} {name : String} (h : e.get? name = none)
    (value : String) :
    e.set name value = { e with attributes := e.attributes ++ [(name, value)] } := by
  have hpair (ps : List (String × String)) (hps : ps.find? (·.1 == name) = none) :
      setPair name value ps = ps ++ [(name, value)] := by
    induction ps with
    | nil => rfl
    | cons p ps ih =>
      rw [List.find?_cons] at hps
      split at hps
      · cases hps
      · rename_i hp
        rw [setPair, hp, ih hps]
        rfl
  rw [Element.set, hpair _ (Option.map_eq_none_iff.1 h)]

/-- The names of the attributes once one is set. -/
theorem map_fst_setPair (name value : String) (ps : List (String × String)) :
    (setPair name value ps).map (·.1) =
      if name ∈ ps.map (·.1) then ps.map (·.1) else ps.map (·.1) ++ [name] := by
  induction ps with
  | nil => rfl
  | cons p ps ih =>
    by_cases hp : p.1 = name
    · have hset : setPair name value (p :: ps) = (p.1, value) :: ps := by simp [setPair, hp]
      simp [hset, hp]
    · have hset : setPair name value (p :: ps) = p :: setPair name value ps := by simp [setPair, hp]
      have hne : ¬ name = p.1 := fun h => hp h.symm
      rw [hset, List.map_cons, ih]
      by_cases hm : name ∈ ps.map (·.1) <;> simp [hm, hne]

theorem nodup_setPair (name value : String) {ps : List (String × String)}
    (h : (ps.map (·.1)).Nodup) : ((setPair name value ps).map (·.1)).Nodup := by
  rw [map_fst_setPair]
  split
  · exact h
  · rename_i hn
    refine List.nodup_append.2 ⟨h, List.nodup_singleton _, fun a ha b hb hab => ?_⟩
    cases List.mem_singleton.1 hb
    exact hn (hab ▸ ha)

theorem mem_setPair {name value : String} {ps : List (String × String)} {p : String × String}
    (h : p ∈ setPair name value ps) : p.1 = name ∨ p ∈ ps := by
  induction ps with
  | nil =>
    cases List.mem_singleton.1 h
    exact .inl rfl
  | cons q ps ih =>
    by_cases hq : q.1 = name
    · have hset : setPair name value (q :: ps) = (q.1, value) :: ps := by simp [setPair, hq]
      rw [hset] at h
      rcases List.mem_cons.1 h with rfl | h
      · exact .inl hq
      · exact .inr (.tail _ h)
    · have hset : setPair name value (q :: ps) = q :: setPair name value ps := by simp [setPair, hq]
      rw [hset] at h
      rcases List.mem_cons.1 h with rfl | h
      · exact .inr (.head _)
      · exact (ih h).imp_right (.tail _)

/-- Erasing an attribute leaves the others alone. -/
theorem get?_erase {e : Element} (h : (e.attributes.map (·.1)).Nodup) (name other : String) :
    (e.erase name).get? other = if name = other then none else e.get? other := by
  obtain ⟨tag, attributes, children, text, line, namespaces⟩ := e
  simp only [Element.get?, Element.erase] at h ⊢
  clear children text line namespaces tag
  induction attributes with
  | nil => simp
  | cons a attributes ih =>
    obtain ⟨ha, h⟩ := List.nodup_cons.1 h
    by_cases hname : a.1 = name
    · have herase : (a :: attributes).eraseP (·.1 == name) = attributes := by simp [hname]
      rw [herase]
      by_cases hother : name = other
      · have hnone : attributes.find? (·.1 == other) = none :=
          List.find?_eq_none.2 fun b hb hbo => ha
            (List.mem_map.2 ⟨b, hb, (beq_iff_eq.1 hbo).trans (hother.symm.trans hname.symm)⟩)
        rw [hnone, if_pos hother]
        rfl
      · have hne : ¬ a.1 = other := fun he => hother (hname.symm.trans he)
        rw [if_neg hother, List.find?_cons_of_neg (by simpa using hne)]
    · have herase : (a :: attributes).eraseP (·.1 == name) =
          a :: attributes.eraseP (·.1 == name) := by simp [hname]
      rw [herase]
      by_cases hother : a.1 = other
      · have hne : ¬ name = other := fun he => hname (hother.trans he.symm)
        rw [List.find?_cons_of_pos (by simpa using hother), if_neg hne,
          List.find?_cons_of_pos (by simpa using hother)]
      · rw [List.find?_cons_of_neg (by simpa using hother), ih h,
          List.find?_cons_of_neg (by simpa using hother)]

theorem isModelElement_of_plain {e : Element} (h : isPlainName e.tag = true) :
    e.isModelElement = true ∧ e.localName = e.tag := by
  rw [isModelElement, localName, namespaceOf?_of_plain h, localName_of_plain h]
  exact ⟨rfl, rfl⟩

theorem isModelElement_of_qualified {e : Element} {name : String}
    (h : e.tag = qualified name modelNamespace) :
    e.isModelElement = true ∧ e.localName = name := by
  have hbrace : '\x7d' ∉ modelNamespace.toList := by decide
  rw [isModelElement, localName, h, namespaceOf?_qualified name hbrace,
    localName_qualified name hbrace]
  exact ⟨by simp, rfl⟩

/-- A walk visits an element before those inside it. -/
theorem walk_eq {σ : Type} (visit : Element → σ → Element × σ) (s : σ) (e : Element) :
    walk visit s e =
      ({ (visit e s).1 with children := (walkAll visit (visit e s).2 e.children).1 },
        (walkAll visit (visit e s).2 e.children).2) := by
  cases e
  rw [walk]

/-! ## Elements inside -/

/-- Whether an element is the root of a tree or stands inside it, at any depth. -/
inductive Inside (root : Element) : Element → Prop
  /-- The root. -/
  | self : Inside root root
  /-- A child of what stands there. -/
  | child {e c : Element} (h : Inside root e) (hc : c ∈ e.children) : Inside root c

theorem Inside.trans {root e c : Element} (he : Inside root e) (h : Inside e c) : Inside root c := by
  induction h with
  | self => exact he
  | child _ hc ih => exact .child ih hc

/-- Whether an element stands inside another one, at any depth. -/
def Encloses (e x : Element) : Prop := ∃ c ∈ e.children, c.Inside x

theorem encloses_of_mem {e c : Element} (h : c ∈ e.children) : e.Encloses c := ⟨c, h, .self⟩

theorem Encloses.inside {e x : Element} (h : e.Encloses x) : e.Inside x := by
  obtain ⟨c, hc, hx⟩ := h
  exact .trans (.child .self hc) hx

theorem inside_iff {e x : Element} : e.Inside x ↔ x = e ∨ e.Encloses x := by
  constructor
  · intro h
    induction h with
    | self => exact .inl rfl
    | child _ hz ih =>
      rcases ih with rfl | ⟨c, hc, hcy⟩
      · exact .inr (encloses_of_mem hz)
      · exact .inr ⟨c, hc, .child hcy hz⟩
  · rintro (rfl | h)
    · exact .self
    · exact h.inside

theorem sizeOf_child_lt {e c : Element} (h : c ∈ e.children) : sizeOf c < sizeOf e := by
  have hc := List.sizeOf_lt_of_mem h
  cases e
  simp only [Element.mk.sizeOf_spec]
  simp only at hc
  omega

theorem walkAll_keeps {σ : Type} {visit : Element → σ → Element × σ} {P : Element → Prop}
    {es : List Element} (h : ∀ e ∈ es, ∀ s, P (walk visit s e).1) (s : σ) :
    ∀ e ∈ (walkAll visit s es).1, P e := by
  induction es generalizing s with
  | nil =>
    rw [walkAll]
    exact List.forall_mem_nil _
  | cons e es ih =>
    rw [walkAll]
    exact List.forall_mem_cons.2 ⟨h e (.head _) s, ih (fun c hc => h c (.tail _ hc)) _⟩

/-- A walk keeps what visits keep, and what depends on the elements inside only as it holds of them. -/
theorem walk_keeps {σ : Type} {visit : Element → σ → Element × σ} {P : Element → Prop}
    (visits : ∀ e s, P e → P (visit e s).1) (inside : ∀ e, P e → ∀ c ∈ e.children, P c)
    (replace : ∀ e cs, P e → (∀ c ∈ cs, P c) → P { e with children := cs }) {e : Element} (h : P e)
    (s : σ) : P (walk visit s e).1 := by
  rw [walk_eq]
  refine replace _ _ (visits e s h) (walkAll_keeps (fun c hc s => ?_) _)
  have := sizeOf_child_lt hc
  exact walk_keeps visits inside replace (inside e h c hc) s
termination_by sizeOf e

/-! ## The number of elements -/

mutual

/-- The number of elements in a tree. -/
def count : Element → Nat
  | ⟨_, _, children, _, _, _⟩ => 1 + countAll children

/-- The number of elements in trees. -/
def countAll : List Element → Nat
  | [] => 0
  | e :: es => e.count + countAll es

end

theorem countAll_eq (es : List Element) : countAll es = (es.map count).sum := by
  induction es with
  | nil => rw [countAll, List.map_nil, List.sum_nil]
  | cons e es ih => rw [countAll, ih, List.map_cons, List.sum_cons]

theorem count_eq (e : Element) : e.count = 1 + (e.children.map count).sum := by
  cases e
  rw [count, countAll_eq]

end Element
end ContentSchema.Markup
