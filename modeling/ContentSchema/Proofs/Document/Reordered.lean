import ContentSchema.Proofs.Document.Effect

/-!
# The order of attributes

Elements inside that of a field are read in two rounds, so that values of the field itself are read
when all else is known. Within the first round their effects may be exchanged, and in the second one
each attribute has its turn wherever its element stands.

Result: the elements of attributes with different names may stand in any order (`readField_perm`).
-/
namespace ContentSchema.Document

open ContentSchema.Field (unplaced)
open FieldCodec (standard)
open Markup (Element)

/-! ## The place of a field -/

section Place

variable {s : Scope} {t : FieldType} {e : Element} {es : List Element} {f g : Field} {m n : Nat}

/-- Elements that describe a standard field leave its place alone. -/
theorem order_of_readAttributes (h : (readAttributes s (standard t) f es).Yields m n g) :
    g.order = f.order := by
  refine of_readAttributes (P := fun g => g.order = f.order)
    (fun e spec g g' _ _ hspec hk hread hg => ?_) h rfl
  rw [readDescription_eq] at hread
  obtain ⟨_, c, hsaid, happly⟩ := hread.bind
  obtain ⟨hname, hmem⟩ := mem_describingSpecs hspec hk
  obtain ⟨act, heffect, hact⟩ := (said_of_yields hsaid).exists_effect hname hmem
  have hset : act g = some g' := by
    rw [← hact g, (Reading.yields_ofModel happly).2]
    rfl
  exact (heffect.order hset).trans hg

/-- So do values of its own type. -/
theorem order_of_readOwnType {codec : FieldCodec} {name : String} (hn : name ∈ ownTypeAttributes)
    (h : (readOwnType s codec es f name).Yields m n g) : g.order = f.order := by
  cases hfind : (ownElements codec es).find? (·.localName == name) with
  | none =>
    rw [readOwnType_of_none hfind] at h
    obtain ⟨-, rfl⟩ := Reading.yields_pure h
    rfl
  | some e =>
    rw [readOwnType_of_some hfind] at h
    obtain ⟨k, v, -, h⟩ := h.of_within.bind
    have hassign := (Reading.yields_ofModel h).2
    rw [assign_eq_overlay (List.mem_append_right _ hn)] at hassign
    cases hset : (default : Field).assign name v with
    | error fault =>
      rw [hset] at hassign
      cases hassign
    | ok r =>
      rw [hset] at hassign
      cases hassign
      rfl

/-- A standard field has the place that its number gives it. -/
theorem order_of_readField (h : (readField s (standard t) e).Yields m n g) : g.order = m := by
  obtain ⟨_, f, hdescribed, hheld, -⟩ := exists_described_of_readField h
  have hplace := hheld.foldlM (P := fun _ f' => f'.order = f.order)
    (fun name hn b _ _ _ hb hread => (order_of_readOwnType hn hread).trans hb) rfl
  rw [hplace, order_of_readAttributes hdescribed]
  rfl

end Place

/-! ## Any order -/

section Reordered

variable {s : Scope} {t : FieldType}

/-- An element does to a standard field what elements of its name do, or nothing. -/
theorem exists_contributes_standard (s : Scope) (t : FieldType) (e : Element) :
    ∃ act, Contributes s (standard t) e act ∧
      (act = some ∨ e.isModelElement = true ∧ Effect e.localName act) := by
  cases hspec : attributeOf? (standard t) e with
  | none => exact ⟨some, .unread (fun _ h => nomatch hspec.symm.trans h), .inl rfl⟩
  | some spec =>
    cases hk : spec.kind.isOwnType with
    | true =>
      exact ⟨some, .unread (fun _ h => Option.some.inj (hspec.symm.trans h) ▸ hk), .inl rfl⟩
    | false =>
      obtain ⟨hmodel, -⟩ := attributeOf?_eq_some.1 hspec
      obtain ⟨hname, hmem⟩ := mem_describingSpecs hspec hk
      obtain ⟨o, ho⟩ := exists_settles_readSetting spec (exists_settles_readField s · e)
      cases o with
      | none => exact ⟨_, .described hspec hk (settles_setting ho), .inr ⟨hmodel, .fails _⟩⟩
      | some c' =>
        -- What the element says is settled, so a run from any start shows what it says.
        obtain ⟨c, hread, rfl⟩ := exists_of_toOption_map (ho {})
        have hyields := Reading.yields_of_start (Prod.ext hread rfl)
        obtain ⟨act, heffect, hact⟩ := (said_of_yields hyields).exists_effect hname hmem
        obtain ⟨act', heffect', hact'⟩ := heffect.exists_unplaced
        refine ⟨act', .described hspec hk fun f => ?_, .inr ⟨hmodel, hname ▸ heffect'⟩⟩
        rw [← hact' f, ← hact f, ← toOption_map_congr (c.apply_unplaced f)]
        exact settles_setting ho f

section Children

variable {es es' : List Element}
  (hnames : ((es.filter (·.isModelElement)).map (·.localName)).Nodup) (hperm : es.Perm es')

include hnames

theorem eq_of_localName {c d : Element} (hc : c ∈ es) (hcmodel : c.isModelElement = true)
    (hd : d ∈ es) (hdmodel : d.isModelElement = true) (h : c.localName = d.localName) : c = d :=
  List.inj_on_of_nodup_map hnames (List.mem_filter.2 ⟨hc, hcmodel⟩)
    (List.mem_filter.2 ⟨hd, hdmodel⟩) h

include hperm

/-- The same elements hold the values of a field's own type. -/
theorem hold_perm (s : Scope) (codec : FieldCodec) : hold s codec es = hold s codec es' := by
  funext g name
  have hown : (ownElements codec es).Perm (ownElements codec es') := hperm.filter _
  have hmodel (c : Element) (hc : c ∈ ownElements codec es) :
      c ∈ es ∧ c.isModelElement = true := by
    obtain ⟨hc, hattribute⟩ := List.mem_filter.1 hc
    obtain ⟨spec, hspec, -⟩ := (Option.any_eq_true _ _).1 hattribute
    exact ⟨hc, (attributeOf?_eq_some.1 hspec).1⟩
  have hfind : (ownElements codec es).find? (·.localName == name) =
      (ownElements codec es').find? (·.localName == name) := by
    refine find?_perm hown fun c hc d hd hcname hdname => ?_
    exact eq_of_localName hnames (hmodel c hc).1 (hmodel c hc).2 (hmodel d hd).1 (hmodel d hd).2
      ((beq_iff_eq.1 hcname).trans (beq_iff_eq.1 hdname).symm)
  unfold hold
  rw [hfind]

/-- Elements with different names make up the same field in any order. -/
theorem madeUp_perm {act : Element → Field → Option Field}
    (hact : ∀ c ∈ es, act c = some ∨ c.isModelElement = true ∧ Effect c.localName (act c))
    (codec : FieldCodec) (name : String) :
    madeUp s codec act name es = madeUp s codec act name es' := by
  have hcomm (c : Element) (hc : c ∈ es) (d : Element) (hd : d ∈ es) (g : Field) :
      (act c g).bind (act d) = (act d g).bind (act c) := by
    by_cases hsame : c = d
    · rw [hsame]
    · rcases hact c hc with hnone | ⟨hcmodel, hceffect⟩
      · rw [hnone]
        exact (Option.bind_fun_some _).symm
      · rcases hact d hd with hnone | ⟨hdmodel, hdeffect⟩
        · rw [hnone]
          exact Option.bind_fun_some _
        · exact hceffect.comm hdeffect
            (fun h => hsame (eq_of_localName hnames hc hcmodel hd hdmodel h)) g
  rw [madeUp, madeUp, foldlM_perm hperm hcomm, hold_perm hnames hperm s codec]

end Children

/-- The elements of attributes may stand in any order, as long as they have different names: reading
fails in both orders, or gives the same field but for the numbers of fields in the order in which they
were read. -/
theorem readField_perm {identifier : String} {codec : FieldCodec}
    (hcodec : Registry.standard.get? identifier = some codec) {e : Element} {children : List Element}
    (hperm : e.children.Perm children)
    (hnames : ((e.children.filter (·.isModelElement)).map (·.localName)).Nodup) (p q : Progress) :
    (∃ fault fault', ((readField s codec e).start p).1 = .error fault ∧
        ((readField s codec { e with children }).start q).1 = .error fault') ∨
      ∃ f g, ((readField s codec e).start p).1 = .ok f ∧
        ((readField s codec { e with children }).start q).1 = .ok g ∧
          f.order = p.nextNumber ∧ g.order = q.nextNumber ∧ f.unplaced = g.unplaced := by
  obtain ⟨t, -, rfl⟩ := Registry.of_get?_standard hcodec
  choose act hcontributes heffect using exists_contributes_standard s t
  have hfirst := settles_readField (e := e) (fun c _ => hcontributes c) p
  have hsecond := settles_readField (e := { e with children }) (fun c _ => hcontributes c) q
  rw [show ({ e with children } : Element).get? "name" = e.get? "name" from rfl,
    ← madeUp_perm hnames hperm (fun c _ => heffect c), ← hfirst] at hsecond
  cases hf : ((readField s (standard t) e).start p).1 with
  | error fault =>
    cases hg : ((readField s (standard t) { e with children }).start q).1 with
    | error fault' => exact .inl ⟨fault, fault', rfl, rfl⟩
    | ok g =>
      rw [hf, hg] at hsecond
      cases hsecond
  | ok f =>
    cases hg : ((readField s (standard t) { e with children }).start q).1 with
    | error fault =>
      rw [hf, hg] at hsecond
      cases hsecond
    | ok g =>
      rw [hf, hg] at hsecond
      have hforder := order_of_readField (Reading.yields_of_start (Prod.ext hf rfl))
      have hgorder := order_of_readField (Reading.yields_of_start (Prod.ext hg rfl))
      exact .inr ⟨f, g, rfl, rfl, hforder, hgorder, (Option.some.inj hsecond).symm⟩

end Reordered

/-- A scope in which integers are the only fields to be nested. -/
def integers : Scope where
  resolve _ := none
  domain := none
  registry := NameMap.ofList [("zope.schema.Int", standard .int)]

/-- The element of a mapping with a default, which stands before the fields of its keys and values. -/
def ratings : Element where
  tag := "field"
  attributes := [("name", "ratings")]
  children :=
    [{ tag := "default"
       children := [{ tag := "element", attributes := [("key", "7")], text := some "4" }] },
      { tag := "key_type", attributes := [("type", "zope.schema.Int")] },
      { tag := "value_type", attributes := [("type", "zope.schema.Int")]
        children := [{ tag := "min", text := some "1" }] }]

theorem readField_perm_ratings :
    ratings.children.Perm ratings.children.reverse ∧
      ((ratings.children.filter (·.isModelElement)).map (·.localName)).Nodup ∧
      ∃ f g, ((readField integers (standard .dict) ratings).start {}).1 = .ok f ∧
        ((readField integers (standard .dict)
          { ratings with children := ratings.children.reverse }).start {}).1 = .ok g ∧
        f.order = 1 ∧ g.order = 1 ∧ f.unplaced = g.unplaced ∧ f.default.isSome = true ∧
        f.keyType.map (·.order) = some 2 ∧ g.keyType.map (·.order) = some 3 := by
  have hperm := (List.reverse_perm ratings.children).symm
  have hnames : ((ratings.children.filter (·.isModelElement)).map (·.localName)).Nodup := by decide
  have hfirst : ((readField integers (standard .dict) ratings).start {}).1.toOption.map
      (fun f => (f.default.isSome, f.keyType.map (·.order))) = some (true, some 2) := by
    decide +kernel
  have hsecond : ((readField integers (standard .dict)
      { ratings with children := ratings.children.reverse }).start {}).1.toOption.map
        (fun g => g.keyType.map (·.order)) = some (some 3) := by
    decide +kernel
  obtain ⟨_, _, hfault, -⟩ | ⟨f, g, hf, hg, hforder, hgorder, hsame⟩ :=
    readField_perm (s := integers) (Registry.get?_standard .dict) hperm hnames {} {}
  · rw [hfault] at hfirst
    cases hfirst
  · rw [hf] at hfirst
    rw [hg] at hsecond
    obtain ⟨hdefault, hkey⟩ := Prod.mk.inj (Option.some.inj hfirst)
    exact ⟨hperm, hnames, f, g, hf, hg, hforder, hgorder, hsame, hdefault, hkey,
      Option.some.inj hsecond⟩

end ContentSchema.Document
