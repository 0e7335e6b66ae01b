import ContentSchema.Proofs.Document.Schema

/-!
# Models read back

A model whose schemas are well-formed has a document, and from the document a model is read that has
the same schemas under the same names, each as it should be read (`RereadSchema`).

Results: the fields that are read are those that were written just if no bound equals the missing
value of its field, and then the model is written as the same document again (`parse_write`).
-/
namespace ContentSchema.Document

open Markup (Element isPlainName modelNamespace qualified)

variable {c : Context}

/-! ## Models that are read -/

/-- A schema whose name is new is put behind the others. -/
theorem Model.insertEntry_new {name : String} {s : Schema} {es : List (String × Schema)}
    (h : name ∉ es.map (·.1)) : Model.insertEntry name s es = es ++ [(name, s)] := by
  induction es with
  | nil => rfl
  | cons e es ih =>
    have hne : ¬ e.1 = name := fun he => h (he ▸ .head _)
    rw [Model.insertEntry, if_neg hne, ih fun hmem => h (.tail _ hmem), List.cons_append]

/-- Whether a model is what is read for another one. -/
def RereadModel (m m' : Model) : Prop :=
  List.Forall₂ (fun e e' => e'.1 = e.1 ∧ RereadSchema e.2 e'.2) m.entries m'.entries

/-- Whether a model has the fields of another one, as far as documents speak of them. -/
def SameFields (m m' : Model) : Prop :=
  List.Forall₂ (fun e e' => ∀ name, (e'.2.fields.get? name).map Field.kept =
    (e.2.fields.get? name).map Field.kept) m.entries m'.entries

/-- Whether no bound of a field of the model's own equals the missing value of its field. -/
def BoundsKept (m : Model) : Prop :=
  ∀ e ∈ m.entries, ∀ name f, e.2.fields.get? name = some f → f.Everywhere Field.BoundsDiffer

theorem Rereads.kept_eq_iff {f g : Field} (h : Rereads f g) :
    g.kept = f.kept ↔ f.Everywhere Field.BoundsDiffer := by
  rw [h.kept]
  exact f.reread_eq_kept_iff

/-- The fields are kept just if no bound is lost. -/
theorem RereadModel.sameFields_iff {m m' : Model} (h : RereadModel m m') :
    SameFields m m' ↔ BoundsKept m := by
  unfold RereadModel at h
  unfold SameFields BoundsKept
  generalize m.entries = entries at h
  generalize m'.entries = entries' at h
  induction h with
  | nil => exact ⟨fun _ => nofun, fun _ => .nil⟩
  | @cons e e' entries entries' hee' _ ih =>
    have hfirst : (∀ name, (e'.2.fields.get? name).map Field.kept =
        (e.2.fields.get? name).map Field.kept) ↔
          ∀ name f, e.2.fields.get? name = some f → f.Everywhere Field.BoundsDiffer := by
      refine forall_congr' fun name => ?_
      have hrel := hee'.2.fields name
      generalize e.2.fields.get? name = f at hrel
      generalize e'.2.fields.get? name = g at hrel
      cases hrel with
      | some hfg => simpa using hfg.kept_eq_iff
      | none => simp
    rw [List.forall₂_cons, hfirst, ih, List.forall_mem_cons]

/-- Whether the schemas of a model can be described, and their fields stay in order when they are read
with numbers from `first` on. -/
def Rewritable (resolve : Resolver) (first : Nat) (entries : List (String × Schema)) : Prop :=
  ∀ e ∈ entries, Describable resolve e.2 ∧ StaysInOrder first e.2

theorem exists_readSchemas (hc : IsStandard c) {entries : List (String × Schema)} {m : Nat}
    (hm : Rewritable c.resolve m entries) {es es' : List Element}
    (hes : List.Forall₂ (fun s e => IsSchemaElement c.resolve s.1 s.2 e) entries es)
    {domain : Option String} (same : SameElements domain es es') (root : Element) (model : Model)
    (hd : (model.entries.map (·.1) ++ entries.map (·.1)).Nodup) :
    ∃ n model' entries', (es'.foldlM (fun model e => Reading.within e.line do
        let (name, schema) ← readSchema c (c.scope domain) Policy.default root e
        return model.insert name schema) model).Succeeds m n model' ∧
      model'.entries = model.entries ++ entries' ∧
      List.Forall₂ (fun e e' => e'.1 = e.1 ∧ RereadSchema e.2 e'.2) entries entries' := by
  induction hes generalizing es' model m with
  | nil =>
    cases same
    exact ⟨m, model, [], Reading.succeeds_pure model m, (List.append_nil _).symm, .nil⟩
  | @cons s e entries es he _ ih =>
    cases same with
    | @cons _ e' _ es' isModel localName attributes content rest =>
      obtain ⟨hdescribable, hstays⟩ := hm s (.head _)
      obtain ⟨k, s', hmk, hread, hs'⟩ := exists_readSchema hc hdescribable he
        ⟨isModel, localName, attributes, content⟩ root hstays
      have hnew : s.1 ∉ model.entries.map (·.1) := fun hmem =>
        List.disjoint_of_nodup_append hd hmem (.head _)
      have hinsert : (model.insert s.1 s').entries = model.entries ++ [(s.1, s')] :=
        Model.insertEntry_new hnew
      obtain ⟨n, model', entries', hreads, hentries, hall⟩ := ih
        (fun e he => ⟨(hm e (.tail _ he)).1, (hm e (.tail _ he)).2.mono hmk⟩) rest
        (model.insert s.1 s') (by rw [hinsert]; simpa using hd)
      refine ⟨n, model', (s.1, s') :: entries', ?_, ?_, .cons ⟨rfl, hs'⟩ hall⟩
      · rw [List.foldlM_cons]
        refine Reading.Succeeds.bind (Reading.Succeeds.within e'.line ?_) hreads
        exact hread.bind (Reading.succeeds_pure _ k)
      · rw [hentries, hinsert, List.append_assoc]
        rfl

/-- A model is written, and the root of its document holds the elements of its schemas. -/
theorem exists_root (hc : IsStandard c) {m : Model} (hm : ∀ s ∈ m.entries, Describable c.resolve s.2)
    (pretty : Bool) :
    ∃ text root es, c.write pretty m = .ok text ∧ Element.read text = .ok root ∧
      (root.isModelElement = true ∧ root.localName = "model") ∧
      List.Forall₂ (fun s e => IsSchemaElement c.resolve s.1 s.2 e) m.entries es ∧
      SameElements (root.get? domainAttribute) es (root.modelChildren "schema") := by
  have hschema : ∀ s ∈ m.entries, ∃ e, schemaElement c s.1 s.2 = .ok e ∧
      IsSchemaElement c.resolve s.1 s.2 e := fun s hs => exists_schemaElement hc (hm s hs) s.1
  obtain ⟨es, hes⟩ := exists_forall₂ hschema
  let root : Element := { tag := "model", namespaces := Markup.declared, children := es }
  have hroot : modelElement c m.entries = .ok (hoistDomain root) := by
    rw [modelElement_eq hc.schemaHandlers hc.fieldHandlers,
      mapM_of_forall₂ (hes.imp fun _ _ h => h.1)]
    rfl
  have hall : AllRegular properDomains es := fun e he => by
    obtain ⟨s, -, -, hs⟩ := exists_of_forall₂_right hes he
    exact ⟨by rw [hs.tag]; decide, hs.regular⟩
  have htags : ∀ e ∈ root.children, e.tag = "schema" := fun e he => by
    obtain ⟨s, -, -, hs⟩ := exists_of_forall₂_right hes he
    exact hs.tag
  have hplain : isPlainName root.tag = true := show isPlainName "model" = true by decide
  obtain ⟨text, root', hwrite, hread, htag, same⟩ :=
    read_write_hoistDomain hplain rfl rfl hall pretty
  refine ⟨text, root', es, ?_, hread, Element.isModelElement_of_qualified htag,
    hes.imp fun _ _ h => h.2, ?_⟩
  · unfold Context.write
    rw [hroot]
    change ((hoistDomain root).write pretty).mapError Fault.markup = .ok text
    rw [hwrite]
    rfl
  · rwa [modelChildren_of_same (by decide) htags same]

/-- A model is written, and read from its document. -/
theorem exists_parse (hc : IsStandard c) {m : Model} {first : Nat}
    (hm : Rewritable c.resolve first m.entries) (pretty : Bool) (file : Option String) :
    ∃ text m' n, c.write pretty m = .ok text ∧ c.parse file "" text first = (.ok m', n) ∧
      RereadModel m m' := by
  obtain ⟨text, root, es, hwrite, hread, ⟨hmodel, hlocal⟩, hes, same⟩ :=
    exists_root hc (fun s hs => (hm s hs).1) pretty
  obtain ⟨n, m', entries', hreads, hentries, hforall⟩ :=
    exists_readSchemas hc hm hes same root Model.empty m.distinct
  refine ⟨text, m', n, hwrite, ?_, ?_⟩
  · have hpolicy : c.policy "" = .ok Policy.default := by rw [Context.policy, hc.policy]
    have hroot : (readRoot c Policy.default root).Succeeds first n m' := by
      unfold readRoot
      refine Reading.Succeeds.within root.line ?_
      have hnot : ¬ (!true || "model" != "model") = true := by decide
      rw [hmodel, hlocal, if_neg hnot]
      exact hreads
    have hall : (readModel c "" text).Succeeds first n m' := by
      unfold readModel
      refine (Reading.succeeds_liftM hpolicy first).bind (Reading.Succeeds.bind ?_ hroot)
      exact Reading.succeeds_ofExcept (by rw [hread]; rfl) first
    unfold Context.parse
    rw [hall []]
    rfl
  · rw [RereadModel, hentries]
    exact hforall

/-- What is read for a model is written as the same document, if no bound was lost. -/
theorem write_of_reread (hc : IsStandard c) {m m' : Model}
    (hm : ∀ e ∈ m.entries, Describable c.resolve e.2) (h : RereadModel m m') (hb : BoundsKept m)
    (pretty : Bool) : Agrees (c.write pretty m) (c.write pretty m') := by
  unfold Context.write modelElement
  refine Agrees.bind (Agrees.bind ?_ fun _ => .refl _) fun _ => .refl _
  have hmembers : List.Forall₂ (fun e e' => e ∈ m.entries ∧ e'.1 = e.1 ∧ RereadSchema e.2 e'.2)
      m.entries m'.entries := (List.forall₂_and_left _ _).2 ⟨fun _ he => he, h⟩
  refine Agrees.mapM_forall₂ (hmembers.imp fun e e' ⟨he, hname, hschema⟩ => ?_)
  rw [hname]
  exact schemaElement_of_reread hc (hm e he) hschema (hb e he) e.1

/-! ## The round trip -/

theorem rewritable_of_wellFormed {resolve : Resolver} {entries : List (String × Schema)}
    (hm : ∀ e ∈ entries, WellFormed resolve e.2) (first : Nat) : Rewritable resolve first entries :=
  fun e he => ⟨(hm e he).toDescribable, (hm e he).staysInOrder first⟩

/-- A model with well-formed schemas has a document, which is read as a model with the same schemas.
Their fields are the same just if no bound equals a missing value, and then the document that is
written for the model that was read is the same. -/
theorem parse_write (hc : IsStandard c) {m : Model}
    (hm : ∀ e ∈ m.entries, WellFormed c.resolve e.2) (pretty : Bool) (file : Option String)
    (first : Nat) :
    ∃ text m' n, c.write pretty m = .ok text ∧ c.parse file "" text first = (.ok m', n) ∧
      RereadModel m m' ∧ (SameFields m m' ↔ BoundsKept m) ∧
      (BoundsKept m → c.write pretty m' = .ok text) := by
  obtain ⟨text, m', n, hwrite, hparse, hreread⟩ :=
    exists_parse hc (rewritable_of_wellFormed hm first) pretty file
  exact ⟨text, m', n, hwrite, hparse, hreread, hreread.sameFields_iff, fun hb =>
    write_of_reread hc (fun e he => (hm e he).toDescribable) hreread hb pretty text hwrite⟩

/-- A schema that the next one builds on. -/
def baseSchema : Schema := { name := "Base", module := "tests" }

theorem get?_baseSchema (name : String) : baseSchema.get? name = none := by
  rw [Schema.get?, Schema.resolutionOrder_of_no_bases rfl]
  rfl

/-- A schema with one field in a fieldset: integers from a least one on, with a missing value. -/
def countSchema (least missing : Int64) : Schema :=
  let empty : Schema :=
    { name := "s", module := "ironmodel.generated", bases := [baseSchema, Schema.root]
      fieldsets := [{ name := "main", fields := ["count"] }] }
  empty.insertField { integersFrom least missing with name := "count" }

/-- A context in which the base of that schema is known. -/
def countContext : Context :=
  { resolve := fun identifier =>
      if identifier == "tests.Base" then some (.schema baseSchema) else none }

theorem isStandard_countContext : IsStandard countContext := ⟨rfl, rfl, rfl, rfl⟩

theorem get?_countSchema {least missing : Int64} {name : String} {f : Field}
    (h : (countSchema least missing).fields.get? name = some f) :
    name = "count" ∧ f = { integersFrom least missing with
      name := "count", interface := some "ironmodel.generated.s" } := by
  have hmem := (NameMap.mem_entries_iff _).2 h
  cases List.mem_singleton.1 hmem
  exact ⟨rfl, rfl⟩

theorem wellFormed_countSchema (least missing : Int64) :
    WellFormed countContext.resolve (countSchema least missing) := by
  refine ⟨⟨⟨[baseSchema], rfl, fun b hb => ?_⟩, fun _ h => absurd h List.not_mem_nil,
    fun name f hf => ?_, fun name f hf => ?_, List.nodup_singleton "main", fun set hset => ?_⟩,
    fun b hb name f _ => ?_⟩
  · cases List.mem_singleton.1 hb
    exact ⟨by decide, by decide, Text.isSpace_of_all (by decide), rfl⟩
  · obtain ⟨rfl, rfl⟩ := get?_countSchema hf
    rfl
  · obtain ⟨-, rfl⟩ := get?_countSchema hf
    exact expressible_ownIntegersFrom _ _ _ _ _ _
  · cases List.mem_singleton.1 hset
    refine ⟨⟨"main", rfl, by decide⟩, by decide, fun name hname => ?_, by decide⟩
    cases List.mem_singleton.1 hname
    exact ⟨_, rfl⟩
  · rcases List.mem_cons.1 hb with rfl | hb
    · exact get?_baseSchema name
    · rw [List.mem_singleton.1 hb, get?_root]

/-- A model with that schema. -/
def countModel (least missing : Int64) : Model :=
  ⟨[("s", countSchema least missing)], List.nodup_singleton "s"⟩

theorem wellFormed_countModel (least missing : Int64) :
    ∀ e ∈ (countModel least missing).entries, WellFormed countContext.resolve e.2 := by
  intro e he
  cases List.mem_singleton.1 he
  exact wellFormed_countSchema least missing

theorem boundsKept_countModel : BoundsKept (countModel 1 0) := by
  intro e he name f hf
  cases List.mem_singleton.1 he
  obtain ⟨-, rfl⟩ := get?_countSchema hf
  refine .intro ⟨?_, nofun⟩ nofun nofun
  rintro b ⟨⟩
  rfl

theorem parse_write_countModel :
    (∀ e ∈ (countModel 1 0).entries, WellFormed countContext.resolve e.2) ∧
      ∃ text m' n, countContext.write true (countModel 1 0) = .ok text ∧
        countContext.parse none "" text 1 = (.ok m', n) ∧ RereadModel (countModel 1 0) m' ∧
        SameFields (countModel 1 0) m' ∧ countContext.write true m' = .ok text := by
  obtain ⟨text, m', n, hwrite, hparse, hreread, hsame, hagain⟩ :=
    parse_write isStandard_countContext (wellFormed_countModel 1 0) true none 1
  exact ⟨wellFormed_countModel 1 0, text, m', n, hwrite, hparse, hreread,
    hsame.2 boundsKept_countModel, hagain boundsKept_countModel⟩

/-- A least value that equals the missing value of its field is lost. -/
theorem parse_write_least_missingValue :
    (∀ e ∈ (countModel 5 5).entries, WellFormed countContext.resolve e.2) ∧
      ∃ text m' n, countContext.write true (countModel 5 5) = .ok text ∧
        countContext.parse none "" text 1 = (.ok m', n) ∧ ¬ SameFields (countModel 5 5) m' := by
  obtain ⟨text, m', n, hwrite, hparse, hreread⟩ :=
    exists_parse isStandard_countContext
      (rewritable_of_wellFormed (wellFormed_countModel 5 5) 1) true none
  refine ⟨wellFormed_countModel 5 5, text, m', n, hwrite, hparse, fun hsame => ?_⟩
  have hbounds := hreread.sameFields_iff.1 hsame _ (.head _) "count" _ rfl
  exact Bool.noConfusion (hbounds.here.min (.int 5) rfl)

end ContentSchema.Document
