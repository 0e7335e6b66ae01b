import ContentSchema.Document.Reading
import Mathlib.Data.List.Forall2

/-!
# Reading that succeeds

`Reading.Succeeds x m n a` says that a step takes the numbers from `m` up to `n`, leaves the elements
that are being read as they were, and gives `a`. There is one rule for each way to build a step.

`Reading.Yields x m n a` says no more than that a run of the step has ended so. Its rules go the other
way: they take a run apart into the runs of the parts, and carry what each part keeps through a loop
(`Yields.foldlM`).
-/
namespace ContentSchema.Document.Reading

variable {α β : Type}

/-- Whether a step gives a result and takes the numbers of new fields from `m` up to `n`. -/
def Succeeds (x : Reading α) (m n : Nat) (a : α) : Prop :=
  ∀ lines, x.start ⟨m, lines⟩ = (.ok a, ⟨n, lines⟩)

theorem start_bind (x : Reading α) (f : α → Reading β) (p : Progress) :
    (x >>= f).start p =
      match x.start p with
      | (.ok a, q) => (f a).start q
      | (.error e, q) => (.error e, q) := by
  unfold start ExceptT.run StateT.run
  simp only [bind, ExceptT.bind, ExceptT.mk, StateT.bind, ExceptT.bindCont]
  cases x p with
  | mk result q => cases result <;> rfl

/-- An element is left when it has been read, and stays entered after a fault. -/
theorem start_within (line : Option Nat) (x : Reading α) (p : Progress) :
    (Reading.within line x).start p =
      match x.start { p with lines := line :: p.lines } with
      | (.ok a, q) => (.ok a, { q with lines := q.lines.tail })
      | (.error e, q) => (.error e, q) := by
  have hpush : (modify fun p => { p with lines := line :: p.lines } : Reading Unit).start p =
      (.ok (), { p with lines := line :: p.lines }) := rfl
  rw [Reading.within, start_bind, hpush]
  dsimp only
  rw [start_bind]
  obtain ⟨result, q⟩ := x.start { p with lines := line :: p.lines }
  cases result <;> rfl

theorem succeeds_pure (a : α) (m : Nat) : Succeeds (pure a) m m a := fun _ => rfl

theorem Succeeds.bind {x : Reading α} {f : α → Reading β} {m n k : Nat} {a : α} {b : β}
    (hx : Succeeds x m n a) (hf : Succeeds (f a) n k b) : Succeeds (x >>= f) m k b := by
  intro lines
  rw [start_bind, hx lines]
  exact hf lines

theorem succeeds_takeNumber (m : Nat) : Succeeds takeNumber m (m + 1) m := fun _ => rfl

theorem succeeds_ofExcept {x : Except Fault α} {a : α} (h : x = .ok a) (m : Nat) :
    Succeeds (ofExcept x) m m a := by
  subst h
  exact fun _ => rfl

theorem succeeds_liftM {x : Except Fault α} {a : α} (h : x = .ok a) (m : Nat) :
    Succeeds (liftM x) m m a :=
  succeeds_ofExcept h m

theorem succeeds_ofModel {x : Except ModelError α} {a : α} (h : x = .ok a) (m : Nat) :
    Succeeds (ofModel x) m m a := by
  subst h
  exact fun _ => rfl

/-- The line of an element counts only while the element is read. -/
theorem Succeeds.within {x : Reading α} {m n : Nat} {a : α} (line : Option Nat)
    (hx : Succeeds x m n a) : Succeeds (Reading.within line x) m n a := by
  intro lines
  rw [start_within, hx (line :: lines)]
  rfl

theorem succeeds_mapM {f : α → Reading β} {m : Nat} {as : List α} {bs : List β}
    (h : List.Forall₂ (fun a b => Succeeds (f a) m m b) as bs) : Succeeds (as.mapM f) m m bs := by
  induction h with
  | nil => exact succeeds_pure _ _
  | cons hab _ ih =>
    rw [List.mapM_cons]
    exact hab.bind (ih.bind (succeeds_pure _ _))

/-! ## Runs taken apart -/

/-- Whether a run of a step has given a result, with the numbers of new fields from `m` up to `n`. -/
def Yields (x : Reading α) (m n : Nat) (a : α) : Prop :=
  ∃ lines lines', x.start ⟨m, lines⟩ = (.ok a, ⟨n, lines'⟩)

theorem yields_of_start {x : Reading α} {p q : Progress} {a : α} (h : x.start p = (.ok a, q)) :
    Yields x p.nextNumber q.nextNumber a :=
  ⟨p.lines, q.lines, h⟩

theorem yields_pure {a b : α} {m n : Nat} (h : Yields (pure a) m n b) : m = n ∧ b = a := by
  obtain ⟨lines, lines', h⟩ := h
  cases h
  exact ⟨rfl, rfl⟩

theorem Yields.bind {x : Reading α} {f : α → Reading β} {m n : Nat} {b : β}
    (h : Yields (x >>= f) m n b) : ∃ k a, Yields x m k a ∧ Yields (f a) k n b := by
  obtain ⟨lines, lines', h⟩ := h
  rw [start_bind] at h
  cases hx : x.start ⟨m, lines⟩ with
  | mk result q =>
    rw [hx] at h
    cases result with
    | error _ => cases h
    | ok a => exact ⟨q.nextNumber, a, ⟨lines, q.lines, hx⟩, q.lines, lines', h⟩

theorem yields_takeNumber {m n a : Nat} (h : Yields takeNumber m n a) : n = m + 1 ∧ a = m := by
  obtain ⟨lines, lines', h⟩ := h
  cases h
  exact ⟨rfl, rfl⟩

theorem yields_ofExcept {x : Except Fault α} {m n : Nat} {a : α} (h : Yields (ofExcept x) m n a) :
    m = n ∧ x = .ok a := by
  obtain ⟨lines, lines', h⟩ := h
  cases x with
  | error _ => cases h
  | ok b =>
    cases h
    exact ⟨rfl, rfl⟩

theorem yields_liftM {x : Except Fault α} {m n : Nat} {a : α} (h : Yields (liftM x) m n a) :
    m = n ∧ x = .ok a :=
  yields_ofExcept h

theorem yields_ofModel {x : Except ModelError α} {m n : Nat} {a : α} (h : Yields (ofModel x) m n a) :
    m = n ∧ x = .ok a := by
  obtain ⟨hmn, h⟩ := yields_ofExcept h
  cases x with
  | error _ => cases h
  | ok b =>
    cases h
    exact ⟨hmn, rfl⟩

theorem not_yields_throw {fault : Fault} {m n : Nat} {a : α} : ¬ Yields (throw fault) m n a := by
  rintro ⟨lines, lines', h⟩
  cases h

theorem Yields.of_within {line : Option Nat} {x : Reading α} {m n : Nat} {a : α}
    (h : Yields (Reading.within line x) m n a) : Yields x m n a := by
  unfold Reading.within at h
  obtain ⟨k, _, ⟨_, _, hpush⟩, h⟩ := h.bind
  obtain ⟨l, b, hx, h⟩ := h.bind
  obtain ⟨j, _, ⟨_, _, hpop⟩, h⟩ := h.bind
  obtain ⟨rfl, rfl⟩ := yields_pure h
  cases hpush
  cases hpop
  exact hx

/-- What each step of a loop keeps, as said of the members so far, holds after the loop of all. -/
theorem Yields.foldlM_before {P : List α → Nat → β → Prop} {f : β → α → Reading β} {as : List α}
    (step : ∀ before, ∀ a ∈ as, ∀ b m n b', P before m b → Yields (f b a) m n b' →
      P (before ++ [a]) n b') {b c : β} {m n : Nat} (h : Yields (as.foldlM f b) m n c)
    (before : List α) (hb : P before m b) : P (before ++ as) n c := by
  induction as generalizing before b m with
  | nil =>
    obtain ⟨rfl, rfl⟩ := yields_pure h
    rwa [List.append_nil]
  | cons a as ih =>
    rw [List.foldlM_cons] at h
    obtain ⟨k, b', hfirst, hmore⟩ := h.bind
    rw [← List.singleton_append, ← List.append_assoc]
    exact ih (fun before a ha => step before a (.tail _ ha)) hmore _
      (step before a (.head _) b m k b' hb hfirst)

/-- What each step of a loop keeps holds after the loop. -/
theorem Yields.foldlM {P : Nat → β → Prop} {f : β → α → Reading β} {as : List α}
    (step : ∀ a ∈ as, ∀ b m n b', P m b → Yields (f b a) m n b' → P n b') {b c : β} {m n : Nat}
    (h : Yields (as.foldlM f b) m n c) (hb : P m b) : P n c :=
  h.foldlM_before (P := fun _ => P) (fun _ => step) [] hb

/-- A loop that collects results gives one for each member. -/
theorem Yields.mapM {f : α → Reading β} {as : List α} {bs : List β} {m n : Nat}
    (h : Yields (as.mapM f) m n bs) : List.Forall₂ (fun a b => ∃ k l, Yields (f a) k l b) as bs := by
  induction as generalizing bs m n with
  | nil =>
    obtain ⟨-, rfl⟩ := yields_pure h
    exact .nil
  | cons a as ih =>
    rw [List.mapM_cons] at h
    obtain ⟨k, b, hfirst, h⟩ := h.bind
    obtain ⟨l, more, hmore, h⟩ := h.bind
    obtain ⟨-, rfl⟩ := yields_pure h
    exact .cons ⟨m, k, hfirst⟩ (ih hmore)

end ContentSchema.Document.Reading
