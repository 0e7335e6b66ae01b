import ContentSchema.Proofs.Document.Adorned

/-!
# Bases of schemas that are read again

A schema is read with the bases that its element names, those that the policy adds, and the root
schema behind them (`bases_of_readSchema`). It is written with the names of all its bases but the root
schema. So when the document is read again under the same policy, the policy adds its bases once more.

Result: which bases a schema has when a document is read, written and read again (`bases_of_reread`).
They are the same for policies that add none; one that adds a base adds it each time (`bases_grow`).
-/
namespace ContentSchema.Document

open Markup (Element)

/-- Handlers that leave bases alone when they read. -/
structure HandlersKeepBases (c : Context) : Prop where
  /-- Handlers of fields do. -/
  field : ∀ h ∈ c.fieldHandlers, ∀ e name a b, h.read e name a = .ok b → b.bases = a.bases
  /-- Handlers of schemas do. -/
  schema : ∀ h ∈ c.schemaHandlers, ∀ e a b, h.read e a = .ok b → b.bases = a.bases

theorem Handled.bases {c : Context} (hc : HandlersKeepBases c) {a b : Schema} (h : Handled c a b) :
    b.bases = a.bases := by
  induction h with
  | refl => rfl
  | tail _ hstep ih =>
    rcases hstep with ⟨handler, hmem, e, name, hread⟩ | ⟨handler, hmem, e, hread⟩
    · exact (hc.field handler hmem e name _ _ hread).trans ih
    · exact (hc.schema handler hmem e _ _ hread).trans ih

/-- The bases of a schema that is read: those that its element names, those of the policy, and the root
schema. -/
theorem bases_of_readSchema {c : Context} (hc : HandlersKeepBases c) {s : Scope} {policy : Policy}
    {root e : Element} {m n : Nat} {entry : String × Schema}
    (h : (readSchema c s policy root e).Yields m n entry) :
    entry.1 = (e.get? "name").getD "" ∧ ∃ named,
      List.Forall₂ (fun identifier b => s.resolve identifier = some (.schema b))
        (Text.words ((e.get? "based-on").getD "")) named ∧
      entry.2.bases = named ++ policy.bases entry.1 root ++ [Schema.root] := by
  obtain ⟨hname, named, parts, hresolved, -, hhandled⟩ := exists_parts_of_yields h
  exact ⟨hname, named, hresolved, by rw [hhandled.bases hc, toSchema_eq]⟩

/-- Bases are found by their names, one for each. -/
theorem bases_of_names {resolve : Resolver} {bases named : List Schema}
    (hnamed : ∀ b ∈ bases, IsNamed resolve b)
    (h : List.Forall₂ (fun identifier b => resolve identifier = some (.schema b))
      (bases.map (·.identifier)) named) : named = bases := by
  induction bases generalizing named with
  | nil =>
    cases h
    rfl
  | cons b bases ih =>
    obtain ⟨hb, hbases⟩ := List.forall_mem_cons.1 hnamed
    cases h with
    | cons hfound hmore =>
      cases hb.resolved.symm.trans hfound
      rw [ih hbases hmore]

/-- What stands before the root schema stays as it is just if nothing comes behind. -/
theorem append_filter_eq_iff {bases added : List Schema} (h : ∀ b ∈ bases, b.isRoot = false) :
    (bases ++ [Schema.root]).filter (!·.isRoot) ++ added ++ [Schema.root] =
      bases ++ [Schema.root] ↔ added = [] := by
  have hroot : Schema.root.isRoot = true := by decide
  have hkept : (bases ++ [Schema.root]).filter (!·.isRoot) = bases := by
    rw [List.filter_append, List.filter_eq_self.2 fun b hb => by simp [h b hb]]
    simp [hroot]
  rw [hkept, List.append_left_inj, List.append_right_eq_self]

/-- A document that is read, written and read again under one policy: each schema has the bases that it
had, without the root schema, then those that the policy adds, and the root schema again. If the root
schema was the last base only, the bases are the same just if the policy adds none. -/
theorem bases_of_reread {c : Context} (hc : Context.WritesPlainly c) (hb : HandlersKeepBases c)
    {file file' : Option String} {policyName document : String} {first first' n n' : Nat}
    {m m' : Model} (hparse : c.parse file policyName document first = (.ok m, n))
    (hnamed : ∀ entry ∈ m.entries, ∀ b ∈ entry.2.bases, b.isRoot = false → IsNamed c.resolve b)
    {pretty : Bool} {text : String} (hwrite : c.write pretty m = .ok text)
    (hreparse : c.parse file' policyName text first' = (.ok m', n')) :
    ∃ policy root, c.policy policyName = .ok policy ∧ Element.read text = .ok root ∧
      List.Forall₂ (fun s s' => s'.1 = s.1 ∧
        s'.2.bases =
          s.2.bases.filter (!·.isRoot) ++ policy.bases s.1 root ++ [Schema.root] ∧
        ((∀ b ∈ s.2.bases.dropLast, b.isRoot = false) →
          (s'.2.bases = s.2.bases ↔ policy.bases s.1 root = []))) m.entries m'.entries := by
  obtain ⟨policy, root, es, hpolicy, hroot, -, hentries⟩ := hc.exists_reread hwrite hreparse
  obtain ⟨_, root₀, -, -, hread⟩ := exists_readSchema_of_parse hparse
  refine ⟨policy, root, hpolicy, hroot, ?_⟩
  have hmembers := (List.forall₂_and_left _ _).2 ⟨fun s (hs : s ∈ m.entries) => hs, hentries⟩
  refine hmembers.imp fun s s' ⟨hmem, e, e', i, j, hwritten, hrestored, hagain⟩ => ?_
  obtain ⟨hname, named, hresolved, hbases⟩ := bases_of_readSchema hb hagain
  have hsame : s'.1 = s.1 := by
    rw [hname, hrestored.get? (by decide), hc.get?_name hwritten]
  have hwords : Text.words ((e'.get? "based-on").getD "") = baseNames s.2 := by
    rw [hrestored.get? (by decide), hc.words_basedOn hwritten (hnamed s hmem)]
  have hnames : named = s.2.bases.filter (!·.isRoot) := by
    rw [hwords] at hresolved
    refine bases_of_names (fun b hb => ?_) hresolved
    obtain ⟨hmem', hnotroot⟩ := List.mem_filter.1 hb
    exact hnamed s hmem b hmem' (by simpa using hnotroot)
  have hagain : s'.2.bases =
      s.2.bases.filter (!·.isRoot) ++ policy.bases s.1 root ++ [Schema.root] := by
    rw [hbases, hnames, hsame]
  refine ⟨hsame, hagain, fun hlast => ?_⟩
  -- the first reading put the root schema behind all other bases
  obtain ⟨before, hbefore⟩ : ∃ before, s.2.bases = before ++ [Schema.root] := by
    obtain ⟨d, -, k, l, -, hfirst⟩ := hread s hmem
    obtain ⟨-, named₀, -, hbases₀⟩ := bases_of_readSchema hb hfirst
    exact ⟨_, hbases₀⟩
  rw [hbefore, List.dropLast_concat] at hlast
  rw [hagain, hbefore]
  exact append_filter_eq_iff hlast

/-! ## A policy with a further base -/

/-- A base that a policy adds. -/
def extraSchema : Schema := { name := "Extra", module := "tests" }

/-- A context with the default policy and one that adds a base. -/
def extraContext : Context where
  resolve identifier :=
    if identifier = extraSchema.identifier then some (.schema extraSchema)
    else if identifier = Schema.rootIdentifier then some (.schema Schema.root)
    else none
  policies :=
    NameMap.ofList [("", Policy.default), ("p", Policy.ofTemplate "plugins" "" [extraSchema])]

theorem writesPlainly_extraContext : Context.WritesPlainly extraContext :=
  ⟨Registry.namesPlainly_standard,
    (leavesWording_primaryField rfl fun _ h => absurd h List.not_mem_nil).adorn⟩

theorem handlersKeepBases_extraContext : HandlersKeepBases extraContext := ⟨nofun, nofun⟩

/-- A document with one schema, which names bases. -/
def basedDocument (bases : String) : String :=
  "<model><schema name=\"s\" based-on=\"" ++ bases ++ "\"/></model>"

/-- What a document is read as, and what it is read as after it was written. -/
def readTwice? (c : Context) (policy document : String) : Option (Model × Model) := do
  let m ← (c.parse none policy document 1).1.toOption
  let m' ← (c.parse none policy (← (c.write false m).toOption) 1).1.toOption
  return (m, m')

theorem exists_of_readTwice? {c : Context} {policy document : String} {m m' : Model}
    (h : readTwice? c policy document = some (m, m')) :
    ∃ text n n', c.parse none policy document 1 = (.ok m, n) ∧ c.write false m = .ok text ∧
      c.parse none policy text 1 = (.ok m', n') := by
  obtain ⟨a, ha, h⟩ := Option.bind_eq_some_iff.1 h
  obtain ⟨text, htext, h⟩ := Option.bind_eq_some_iff.1 h
  obtain ⟨b, hb, h⟩ := Option.bind_eq_some_iff.1 h
  cases h
  obtain ⟨n, hparse⟩ := exists_of_fst_toOption ha
  obtain ⟨n', hreparse⟩ := exists_of_fst_toOption hb
  exact ⟨text, n, n', hparse, of_toOption htext, hreparse⟩

/-- The identifiers of the bases of each schema. -/
def baseIdentifiers (m : Model) : List (List String) :=
  m.entries.map fun s => s.2.bases.map (·.identifier)

/-- All bases in this context are the further one and the root schema. -/
theorem mem_bases_extraContext {policy document : String} (hp : policy = "" ∨ policy = "p")
    {m : Model} {n : Nat} (h : extraContext.parse none policy document 1 = (.ok m, n)) :
    ∀ entry ∈ m.entries, ∀ b ∈ entry.2.bases, b = extraSchema ∨ b = Schema.root := by
  obtain ⟨p, root, hpolicy, -, hread⟩ := exists_readSchema_of_parse h
  intro entry hentry b hb
  obtain ⟨e, -, k, l, -, hschema⟩ := hread entry hentry
  obtain ⟨-, named, hresolved, hbases⟩ :=
    bases_of_readSchema handlersKeepBases_extraContext hschema
  rw [hbases, List.mem_append, List.mem_append, List.mem_singleton] at hb
  rcases hb with (hb | hb) | hb
  · obtain ⟨identifier, -, hfound⟩ := exists_of_forall₂_right hresolved hb
    change (if identifier = extraSchema.identifier then some (Symbol.schema extraSchema)
      else if identifier = Schema.rootIdentifier then some (.schema Schema.root)
      else none) = _ at hfound
    split at hfound
    · cases hfound
      exact .inl rfl
    · split at hfound
      · cases hfound
        exact .inr rfl
      · cases hfound
  · rcases hp with rfl | rfl
    · cases hpolicy
      cases hb
    · cases hpolicy
      exact .inl (List.mem_singleton.1 hb)
  · exact .inr hb

theorem isNamed_extraSchema : IsNamed extraContext.resolve extraSchema :=
  ⟨by decide, by decide, Text.isSpace_of_all (by decide), rfl⟩

/-- Under the default policy a base that the document names stays the only one. -/
theorem bases_of_reread_extra :
    ∃ m m' n n' text, extraContext.parse none "" (basedDocument "tests.Extra") 1 = (.ok m, n) ∧
      extraContext.write false m = .ok text ∧
      extraContext.parse none "" text 1 = (.ok m', n') ∧
      baseIdentifiers m = [["tests.Extra", Schema.rootIdentifier]] ∧
      List.Forall₂ (fun s s' => s'.2.bases = s.2.bases) m.entries m'.entries := by
  have hboth : (readTwice? extraContext "" (basedDocument "tests.Extra")).map
      (fun p => baseIdentifiers p.1) = some [["tests.Extra", Schema.rootIdentifier]] := by
    decide +kernel
  obtain ⟨⟨m, m'⟩, hread, hfirst⟩ := Option.map_eq_some_iff.1 hboth
  obtain ⟨text, n, n', hparse, hwrite, hreparse⟩ := exists_of_readTwice? hread
  have hnamed (entry) (hentry : entry ∈ m.entries) (b) (hb : b ∈ entry.2.bases)
      (hroot : b.isRoot = false) : IsNamed extraContext.resolve b := by
    rcases mem_bases_extraContext (.inl rfl) hparse entry hentry b hb with rfl | rfl
    · exact isNamed_extraSchema
    · cases hroot
  refine ⟨m, m', n, n', text, hparse, hwrite, hreparse, hfirst, ?_⟩
  obtain ⟨policy, root, hpolicy, -, hentries⟩ := bases_of_reread writesPlainly_extraContext
    handlersKeepBases_extraContext hparse hnamed hwrite hreparse
  cases hpolicy
  have hmembers := (List.forall₂_and_left _ _).2 ⟨fun s (hs : s ∈ m.entries) => hs, hentries⟩
  refine hmembers.imp fun s s' ⟨hs, _, _, hsame⟩ => (hsame fun b hb => ?_).2 rfl
  have hidentifiers : s.2.bases.map (·.identifier) = ["tests.Extra", Schema.rootIdentifier] :=
    List.mem_singleton.1 (hfirst ▸ List.mem_map_of_mem hs)
  have hb' := List.mem_map_of_mem (f := (·.identifier)) hb
  rw [List.map_dropLast, hidentifiers] at hb'
  rw [Schema.isRoot, List.mem_singleton.1 hb']
  decide

/-- A policy that adds a base adds it again when the document is read again, although all bases are
found by their identifiers. -/
theorem bases_grow :
    ∃ m m' n n' text, extraContext.parse none "p" (basedDocument "") 1 = (.ok m, n) ∧
      (∀ entry ∈ m.entries, ∀ b ∈ entry.2.bases,
        extraContext.resolve b.identifier = some (.schema b)) ∧
      extraContext.write false m = .ok text ∧
      extraContext.parse none "p" text 1 = (.ok m', n') ∧
      baseIdentifiers m = [["tests.Extra", Schema.rootIdentifier]] ∧
      baseIdentifiers m' = [["tests.Extra", "tests.Extra", Schema.rootIdentifier]] := by
  have hboth : (readTwice? extraContext "p" (basedDocument "")).map
      (fun p => (baseIdentifiers p.1, baseIdentifiers p.2)) =
        some ([["tests.Extra", Schema.rootIdentifier]],
          [["tests.Extra", "tests.Extra", Schema.rootIdentifier]]) := by decide +kernel
  obtain ⟨⟨m, m'⟩, hread, hnames⟩ := Option.map_eq_some_iff.1 hboth
  obtain ⟨hfirst, hagain⟩ := Prod.mk.inj hnames
  obtain ⟨text, n, n', hparse, hwrite, hreparse⟩ := exists_of_readTwice? hread
  refine ⟨m, m', n, n', text, hparse, fun entry hentry b hb => ?_, hwrite, hreparse, hfirst, hagain⟩
  rcases mem_bases_extraContext (.inr rfl) hparse entry hentry b hb with rfl | rfl
  · exact isNamed_extraSchema.resolved
  · rfl

end ContentSchema.Document
