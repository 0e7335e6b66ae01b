import Mathlib.Data.List.Forall2

/-!
# Steps over lists

A step that gives a result for each member of a list gives the list of the results
(`mapM_of_forall₂`), and one that gave the list gave each of them (`forall₂_of_mapM`).
-/
namespace ContentSchema

variable {α β ε : Type}

theorem exists_forall₂ {P : α → β → Prop} {as : List α} (h : ∀ a ∈ as, ∃ b, P a b) :
    ∃ bs, List.Forall₂ P as bs := by
  induction as with
  | nil => exact ⟨[], .nil⟩
  | cons a as ih =>
    obtain ⟨b, hb⟩ := h a (.head _)
    obtain ⟨bs, hbs⟩ := ih fun c hc => h c (.tail _ hc)
    exact ⟨b :: bs, .cons hb hbs⟩

theorem exists_of_forall₂_right {P : α → β → Prop} {as : List α} {bs : List β}
    (h : List.Forall₂ P as bs) {b : β} (hb : b ∈ bs) : ∃ a ∈ as, P a b := by
  induction h with
  | nil => cases hb
  | @cons a c as bs hac _ ih =>
    rcases List.mem_cons.1 hb with rfl | hb
    · exact ⟨a, .head _, hac⟩
    · obtain ⟨a', ha', hab⟩ := ih hb
      exact ⟨a', .tail _ ha', hab⟩

theorem map_eq_of_forall₂ {γ : Type} {f : α → γ} {g : β → γ} {as : List α} {bs : List β}
    (h : List.Forall₂ (fun a b => f a = g b) as bs) : as.map f = bs.map g := by
  induction h with
  | nil => rfl
  | cons hab _ ih => rw [List.map_cons, hab, ih, List.map_cons]

theorem forall₂_of_map_eq {γ : Type} {f : α → γ} {g : β → γ} {P : α → β → Prop} {as : List α}
    {bs : List β} (h : as.map f = bs.map g) (hP : ∀ a ∈ as, ∀ b ∈ bs, f a = g b → P a b) :
    List.Forall₂ P as bs := by
  induction as generalizing bs with
  | nil =>
    cases bs with
    | nil => exact .nil
    | cons b bs => cases h
  | cons a as ih =>
    cases bs with
    | nil => cases h
    | cons b bs =>
      obtain ⟨hab, h⟩ := List.cons.inj h
      exact .cons (hP a (.head _) b (.head _) hab)
        (ih h fun c hc d hd => hP c (.tail _ hc) d (.tail _ hd))

theorem mapM_of_forall₂ {f : α → Except ε β} {as : List α} {bs : List β}
    (h : List.Forall₂ (fun a b => f a = .ok b) as bs) : as.mapM f = .ok bs := by
  induction h with
  | nil => rfl
  | cons hab _ ih =>
    rw [List.mapM_cons, hab, ih]
    rfl

theorem exists_of_bind {x : Except ε α} {k : α → Except ε β} {b : β} (h : (x >>= k) = .ok b) :
    ∃ a, x = .ok a ∧ k a = .ok b := by
  cases x with
  | error e => cases h
  | ok a => exact ⟨a, rfl, h⟩

theorem exists_of_map {x : Except ε α} {f : α → β} {b : β} (h : x.map f = .ok b) :
    ∃ a, x = .ok a ∧ b = f a := by
  cases x with
  | error e => cases h
  | ok a => exact ⟨a, rfl, (Except.ok.inj h).symm⟩

theorem forall₂_comp {γ : Type} {P : α → β → Prop} {Q : β → γ → Prop} {as : List α} {bs : List β}
    {cs : List γ} (h : List.Forall₂ P as bs) (h' : List.Forall₂ Q bs cs) :
    List.Forall₂ (fun a c => ∃ b, P a b ∧ Q b c) as cs := by
  induction h generalizing cs with
  | nil =>
    cases h'
    exact .nil
  | cons hab _ ih =>
    cases h' with
    | cons hbc h' => exact .cons ⟨_, hab, hbc⟩ (ih h')

/-- A relation between the members of one list is one between those of the other, where it is for all
that stand in a third relation. -/
theorem pairwise_iff_of_forall₂ {R : α → β → Prop} {T P : α → α → Prop} {Q : β → β → Prop}
    {as : List α} {bs : List β} (h : List.Forall₂ R as bs) (hT : as.Pairwise T)
    (hiff : ∀ {a a' b b'}, R a b → R a' b' → T a a' → (P a a' ↔ Q b b')) :
    as.Pairwise P ↔ bs.Pairwise Q := by
  have first {a : α} {b : β} (hab : R a b) {as : List α} {bs : List β} (h : List.Forall₂ R as bs)
      (hT : ∀ c ∈ as, T a c) : (∀ c ∈ as, P a c) ↔ ∀ d ∈ bs, Q b d := by
    induction h with
    | nil => simp
    | cons hcd _ ih =>
      rw [List.forall_mem_cons] at hT
      rw [List.forall_mem_cons, List.forall_mem_cons, hiff hab hcd hT.1, ih hT.2]
  induction h with
  | nil => simp
  | cons hab h ih =>
    obtain ⟨ha, hT⟩ := List.pairwise_cons.1 hT
    rw [List.pairwise_cons, List.pairwise_cons]
    exact and_congr (first hab h ha) (ih hT)

theorem of_mapError {ε' : Type} {x : Except ε α} {f : ε → ε'} {a : α} (h : x.mapError f = .ok a) :
    x = .ok a := by
  cases x with
  | error e => cases h
  | ok b =>
    cases h
    rfl

theorem of_toOption {x : Except ε α} {a : α} (h : x.toOption = some a) : x = .ok a := by
  cases x with
  | error e => cases h
  | ok b => rw [Option.some.inj h]

theorem exists_of_toOption_map {x : Except ε α} {f : α → β} {b : β}
    (h : x.toOption.map f = some b) : ∃ a, x = .ok a ∧ f a = b := by
  cases x with
  | error e => cases h
  | ok a => exact ⟨a, rfl, Option.some.inj h⟩

theorem exists_of_fst_toOption {σ : Type} {p : Except ε α × σ} {a : α}
    (h : p.1.toOption = some a) : ∃ s, p = (.ok a, s) := ⟨p.2, Prod.ext (of_toOption h) rfl⟩

/-- What is known of the result of a run that comes with a state. -/
theorem exists_of_fst_toOption_map {σ : Type} {p : Except ε α × σ} {f : α → β} {b : β}
    (h : p.1.toOption.map f = some b) : ∃ a s, p = (.ok a, s) ∧ f a = b := by
  obtain ⟨a, ha, hf⟩ := Option.map_eq_some_iff.1 h
  obtain ⟨s, hs⟩ := exists_of_fst_toOption ha
  exact ⟨a, s, hs, hf⟩

theorem error_of_bind {x : Except ε α} {k : α → Except ε β} {e : ε} (h : (x >>= k) = .error e) :
    x = .error e ∨ ∃ a, x = .ok a ∧ k a = .error e := by
  cases x with
  | error e' =>
    cases h
    exact .inl rfl
  | ok a => exact .inr ⟨a, rfl, h⟩

theorem exists_error_of_mapM {f : α → Except ε β} {as : List α} {e : ε}
    (h : as.mapM f = .error e) : ∃ a ∈ as, f a = .error e := by
  induction as with
  | nil => cases h
  | cons a as ih =>
    rw [List.mapM_cons] at h
    rcases error_of_bind h with ha | ⟨b, -, h⟩
    · exact ⟨a, .head _, ha⟩
    · rcases error_of_bind h with hmore | ⟨bs, -, h⟩
      · obtain ⟨c, hc, he⟩ := ih hmore
        exact ⟨c, .tail _ hc, he⟩
      · cases h

theorem forall₂_of_mapM {f : α → Except ε β} {as : List α} {bs : List β}
    (h : as.mapM f = .ok bs) : List.Forall₂ (fun a b => f a = .ok b) as bs := by
  induction as generalizing bs with
  | nil =>
    cases h
    exact .nil
  | cons a as ih =>
    rw [List.mapM_cons] at h
    obtain ⟨b, hb, h⟩ := exists_of_bind h
    obtain ⟨more, hmore, h⟩ := exists_of_bind h
    cases h
    exact .cons hb (ih hmore)

theorem mapM_of_forall {f : α → Except ε β} {g : α → β} {as : List α}
    (h : ∀ a ∈ as, f a = .ok (g a)) : as.mapM f = .ok (as.map g) := by
  refine mapM_of_forall₂ ?_
  induction as with
  | nil => exact .nil
  | cons a as ih => exact .cons (h a (.head _)) (ih fun b hb => h b (.tail _ hb))

theorem foldlM_congr {m : Type → Type} [Monad m] {f g : β → α → m β} {as : List α}
    (h : ∀ a ∈ as, ∀ b, f b a = g b a) (b : β) : as.foldlM f b = as.foldlM g b := by
  induction as generalizing b with
  | nil => rfl
  | cons a as ih =>
    rw [List.foldlM_cons, List.foldlM_cons, h a (.head _)]
    exact bind_congr fun c => ih (fun d hd => h d (.tail _ hd)) c

/-- What each step of a loop keeps holds after the loop. -/
theorem of_foldlM {P : β → Prop} {f : β → α → Except ε β} {as : List α}
    (step : ∀ a ∈ as, ∀ b b', P b → f b a = .ok b' → P b') {b c : β} (h : as.foldlM f b = .ok c)
    (hb : P b) : P c := by
  induction as generalizing b with
  | nil =>
    cases h
    exact hb
  | cons a as ih =>
    rw [List.foldlM_cons] at h
    obtain ⟨b', hfirst, hmore⟩ := exists_of_bind h
    exact ih (fun a ha => step a (.tail _ ha)) hmore (step a (.head _) b b' hb hfirst)

/-- A loop whose steps may be exchanged goes through its members in any order. -/
theorem foldlM_perm {f : β → α → Option β} {as bs : List α} (h : as.Perm bs)
    (comm : ∀ a ∈ as, ∀ b ∈ as, ∀ c, (f c a).bind (f · b) = (f c b).bind (f · a)) (c : β) :
    as.foldlM f c = bs.foldlM f c := by
  induction h generalizing c with
  | nil => rfl
  | cons a _ ih =>
    rw [List.foldlM_cons, List.foldlM_cons]
    exact bind_congr fun d => ih (fun x hx y hy => comm x (.tail _ hx) y (.tail _ hy)) d
  | swap a b as =>
    simp only [List.foldlM_cons, ← bind_assoc]
    exact congrArg (· >>= fun d => as.foldlM f d) (comm b (.head _) a (.tail _ (.head _)) c)
  | trans h _ ih ih' =>
    rw [ih comm]
    exact ih' (fun x hx y hy => comm x (h.mem_iff.2 hx) y (h.mem_iff.2 hy)) c

/-- A search that only one member meets finds it in any order. -/
theorem find?_perm {p : α → Bool} {as bs : List α} (h : as.Perm bs)
    (one : ∀ a ∈ as, ∀ b ∈ as, p a = true → p b = true → a = b) : as.find? p = bs.find? p := by
  cases hb : bs.find? p with
  | none =>
    rw [List.find?_eq_none] at hb ⊢
    exact fun a ha => hb a (h.mem_iff.1 ha)
  | some b =>
    have hpb := List.find?_some hb
    have hmem := h.mem_iff.2 (List.mem_of_find?_eq_some hb)
    cases ha : as.find? p with
    | none => exact absurd hpb (List.find?_eq_none.1 ha b hmem)
    | some a => rw [one a (List.mem_of_find?_eq_some ha) b hmem (List.find?_some ha) hpb]

theorem zip_map_self (g : α → β) (as : List α) : as.zip (as.map g) = as.map fun a => (a, g a) := by
  induction as with
  | nil => rfl
  | cons a as ih => rw [List.map_cons, List.zip_cons_cons, ih, List.map_cons]

/-! ## Steps that agree -/

/-- Whether a second step gives whatever a first one gives. -/
def Agrees (x y : Except ε α) : Prop := ∀ a, x = .ok a → y = .ok a

theorem Agrees.refl (x : Except ε α) : Agrees x x := fun _ h => h

theorem Agrees.bind {x y : Except ε α} {k l : α → Except ε β} (hx : Agrees x y)
    (hk : ∀ a, Agrees (k a) (l a)) : Agrees (x >>= k) (y >>= l) := by
  intro b hb
  obtain ⟨a, ha, hb⟩ := exists_of_bind hb
  rw [hx a ha]
  exact hk a b hb

theorem Agrees.map {x y : Except ε α} (h : Agrees x y) (f : α → β) :
    Agrees (x.map f) (y.map f) := by
  intro b hb
  obtain ⟨a, ha, hb⟩ := exists_of_map hb
  rw [h a ha, hb]
  rfl

theorem Agrees.mapM_forall₂ {γ : Type} {f : α → Except ε γ} {g : β → Except ε γ} {as : List α}
    {bs : List β} (h : List.Forall₂ (fun a b => Agrees (f a) (g b)) as bs) :
    Agrees (as.mapM f) (bs.mapM g) := by
  induction h with
  | nil => exact .refl _
  | cons hab _ ih =>
    rw [List.mapM_cons, List.mapM_cons]
    exact hab.bind fun _ => ih.bind fun _ => .refl _

theorem Agrees.mapM {f g : α → Except ε β} {as : List α} (h : ∀ a ∈ as, Agrees (f a) (g a)) :
    Agrees (as.mapM f) (as.mapM g) :=
  Agrees.mapM_forall₂ (List.forall₂_same.2 h)

end ContentSchema
