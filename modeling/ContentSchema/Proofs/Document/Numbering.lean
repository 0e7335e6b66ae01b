import ContentSchema.Document.ModelReader
import ContentSchema.Proofs.Document.Parts
import ContentSchema.Proofs.Document.Reading

/-!
# Numbers of fields grow

Reading gives each new field the next number and takes none back. `Reading.Grows` says so of a step,
with one rule for each way to build a step.

Results: a field that is read in a schema takes numbers upwards (`grows_readNamedField`), and so does a
schema (`grows_readSchema`).
-/
namespace ContentSchema.Document

open Markup (Element)

namespace Reading

variable {α β : Type}

/-- Whether a step leaves no smaller number to the next field. -/
def Grows (x : Reading α) : Prop := ∀ m n a, x.Yields m n a → m ≤ n

theorem grows_pure (a : α) : Grows (pure a : Reading α) := fun _ _ _ h =>
  Nat.le_of_eq (yields_pure h).1

theorem Grows.bind {x : Reading α} {f : α → Reading β} (hx : Grows x) (hf : ∀ a, Grows (f a)) :
    Grows (x >>= f) := by
  intro m n b h
  obtain ⟨k, a, ha, hb⟩ := h.bind
  exact Nat.le_trans (hx m k a ha) (hf a k n b hb)

theorem grows_takeNumber : Grows takeNumber := fun m n a h => by
  rw [(yields_takeNumber h).1]
  exact m.le_succ

theorem grows_ofExcept (x : Except Fault α) : Grows (ofExcept x) := fun _ _ _ h =>
  Nat.le_of_eq (yields_ofExcept h).1

theorem grows_liftM (x : Except Fault α) : Grows (liftM x : Reading α) := grows_ofExcept x

theorem grows_ofModel (x : Except ModelError α) : Grows (ofModel x) := grows_ofExcept _

theorem grows_throw (fault : Fault) : Grows (throw fault : Reading α) := fun _ _ _ h =>
  absurd h not_yields_throw

theorem Grows.within {x : Reading α} (hx : Grows x) (line : Option Nat) :
    Grows (Reading.within line x) := fun m n a h => hx m n a h.of_within

theorem grows_foldlM {f : β → α → Reading β} {as : List α} (hf : ∀ a ∈ as, ∀ b, Grows (f b a)) (b : β) :
    Grows (as.foldlM f b) := fun m _ _ h =>
  h.foldlM (P := fun k _ => m ≤ k)
    (fun a ha b i j b' hi hstep => Nat.le_trans hi (hf a ha b i j b' hstep)) m.le_refl

theorem grows_mapM {f : α → Reading β} {as : List α} (hf : ∀ a ∈ as, Grows (f a)) :
    Grows (as.mapM f) := by
  induction as with
  | nil => exact grows_pure []
  | cons a as ih =>
    rw [List.mapM_cons]
    exact (hf a (.head _)).bind fun _ =>
      (ih fun a ha => hf a (.tail _ ha)).bind fun _ => grows_pure _

end Reading

open Reading

/-! ## Fields -/

theorem grows_readVocabulary (s : Scope) (e : Element) : Grows (readVocabulary s e) :=
  (grows_mapM fun i _ => (grows_ofExcept _).within i.line).bind fun _ => grows_ofModel _

theorem grows_readAttribute (s : Scope) (f : Field) (spec : AttributeSpec) (e : Element) :
    Grows (readAttribute s f spec e) := by
  unfold readAttribute
  split
  · refine (grows_liftM _).bind fun symbol => ?_
    split
    · exact grows_ofModel _
    · exact grows_throw _
  · refine (grows_liftM _).bind fun symbol => ?_
    split
    · exact grows_pure _
    · exact grows_throw _
  · exact (grows_readVocabulary s e).bind fun _ => grows_ofModel _
  · exact (grows_liftM _).bind fun _ => grows_ofModel _
  · exact (grows_liftM _).bind fun _ => grows_ofModel _

theorem grows_readOwnType (s : Scope) (codec : FieldCodec) (es : List Element) (f : Field)
    (name : String) : Grows (readOwnType s codec es f name) := by
  unfold readOwnType
  dsimp only
  split
  · exact grows_pure f
  · exact ((grows_liftM _).bind fun _ => grows_ofModel _).within _

mutual

/-- A field takes the next number, and so do those nested in it. -/
theorem grows_readField (s : Scope) (codec : FieldCodec) (e : Element) : Grows (readField s codec e) := by
  match e with
  | ⟨tag, attributes, children, text, line, namespaces⟩ =>
    rw [readField_eq]
    exact grows_takeNumber.bind fun _ => (grows_readAttributes s codec _ children).bind fun _ =>
      (grows_foldlM (fun name _ f => grows_readOwnType s codec _ f name) _).bind fun _ =>
        grows_ofModel _

/-- The attributes of a field that come first take numbers for nested fields only. -/
theorem grows_readAttributes (s : Scope) (codec : FieldCodec) (f : Field) (es : List Element) :
    Grows (readAttributes s codec f es) := by
  match es with
  | [] =>
    rw [readAttributes]
    exact grows_pure f
  | e :: es =>
    rw [readAttributes]
    split
    · exact grows_readAttributes s codec f es
    · split
      · exact grows_readAttributes s codec f es
      · refine Grows.bind (Grows.within ?_ _) fun f => grows_readAttributes s codec f es
        split
        · exact (grows_liftM _).bind fun codec => (grows_readField s codec e).bind fun _ =>
            grows_ofModel _
        · exact grows_readAttribute s f _ e

end

theorem grows_readNamedField (s : Scope) (orders : NameMap Nat) (e : Element) :
    Grows (readNamedField s orders e) := by
  unfold readNamedField
  refine (grows_liftM _).bind fun name => (grows_liftM _).bind fun type => ?_
  split
  · exact grows_throw _
  · exact (grows_readField s _ e).bind fun _ => grows_pure _

/-! ## Schemas -/

theorem grows_takeField (s : Scope) (orders : NameMap Nat)
    (grow : List Fieldset → String → List Fieldset) (parts : SchemaParts) (e : Element) :
    Grows (takeField s orders grow parts e) :=
  ((grows_readNamedField s orders e).bind fun _ => grows_pure _).within e.line

theorem grows_readFieldset (s : Scope) (schemaName : String) (orders : NameMap Nat)
    (parts : SchemaParts) (e : Element) : Grows (readFieldset s schemaName orders parts e) := by
  unfold readFieldset
  split
  · exact grows_throw _
  · rename_i set _
    have hmembers (parts : SchemaParts) : Grows ((e.modelChildren "field").foldlM
        (takeField s orders fun sets name =>
          Schema.mergeFieldset { name := set, fields := [name] } sets) parts) :=
      grows_foldlM (fun child _ parts => grows_takeField s orders _ parts child) parts
    dsimp only
    split
    · exact (grows_pure parts).bind hmembers
    · exact (grows_liftM _).bind fun _ => (grows_pure _).bind hmembers

theorem grows_readPart (s : Scope) (schemaName : String) (orders : NameMap Nat) (parts : SchemaParts)
    (e : Element) : Grows (readPart s schemaName orders parts e) := by
  unfold readPart
  split
  · exact grows_pure parts
  · refine Grows.within ?_ e.line
    split
    · exact (grows_readNamedField s orders e).bind fun _ => grows_pure _
    · exact grows_readFieldset s schemaName orders parts e
    · exact (grows_liftM _).bind fun _ => grows_pure _
    · exact grows_pure parts

theorem grows_handleField (handlers : List FieldHandler) (elements : NameMap Element)
    (schema : Schema) (name : String) : Grows (handleField handlers elements schema name) := by
  unfold handleField
  split
  · exact grows_pure schema
  · exact (grows_foldlM (fun _ _ _ => grows_ofExcept _) schema).within _

/-- The fields of a schema take numbers upwards; handlers take none. -/
theorem grows_readSchema (c : Context) (s : Scope) (policy : Policy) (root e : Element) :
    Grows (readSchema c s policy root e) := by
  have handlers (label : String) (schema : Schema) : Grows (do
      let schema ← c.schemaHandlers.foldlM (fun schema h => Reading.ofExcept (h.read e schema)) schema
      return (label, schema) : Reading (String × Schema)) :=
    (grows_foldlM (fun _ _ _ => grows_ofExcept _) schema).bind fun _ => grows_pure _
  unfold readSchema
  refine (grows_mapM fun _ _ => grows_ofExcept _).bind fun bases => ?_
  refine (grows_foldlM (fun child _ parts => grows_readPart s _ _ parts child) _).bind fun parts => ?_
  dsimp only
  split
  · exact (grows_pure _).bind (handlers _)
  · exact (grows_foldlM (fun name _ schema => grows_handleField _ _ schema name) _).bind (handlers _)

end ContentSchema.Document
