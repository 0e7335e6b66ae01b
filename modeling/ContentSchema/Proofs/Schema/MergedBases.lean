import ContentSchema.Proofs.Schema.Ordered
import ContentSchema.Proofs.Schema.Sync

/-!
# Bases of two schemas

Without overwriting, syncing bases puts those of the other schema that are new behind those of the
source. The root stands where the source has it then, although schemas behind it may build on it.
Such bases have no consistent order (`Schema.not_haveOrder_of_behind`), and what follows the schema
are the hierarchies of its bases one after the other.

Result: when the other schema has its hierarchy in order after that (`Schema.isOrdered_sync`). It does
if the root stands last or not at all, and it does not if a schema that builds on the root, and that
none in front of it builds on, stands behind the root.
-/
namespace ContentSchema.Schema

open Linearization

variable {source dest : Schema}

/-! ## Consistent bases -/

/-- Whether schemas have a consistent order as bases. -/
def HaveOrder (bases : List Schema) : Prop :=
  ∃ order, IsConsistent key (bases.map resolutionOrder ++ [bases]) order

theorem haveOrder_iff {bases : List Schema} :
    HaveOrder bases ↔ (merge key (bases.map resolutionOrder ++ [bases])).isSome = true :=
  isSome_merge_iff.symm

/-- Some of the bases have an order if all have one. -/
theorem HaveOrder.sublist {bases bases' : List Schema} (h : HaveOrder bases')
    (hsub : bases.Sublist bases') : HaveOrder bases := by
  obtain ⟨order, horder⟩ := h
  rw [haveOrder_iff]
  refine Option.isSome_iff_exists.2 (exists_merge horder.nodup fun s hs => ?_)
  rcases List.mem_append.1 hs with hs | hs
  · exact horder.keeps s (List.mem_append_left _ ((hsub.map _).subset hs))
  · obtain rfl := List.mem_singleton.1 hs
    exact (hsub.map key).trans (horder.keeps bases' (by simp))

/-- Bases have no order if one of them stands behind its own ancestor. -/
theorem not_haveOrder_of_behind {bases : List Schema} {a b : Schema} (hab : [a, b].Sublist bases)
    (hb : b.IsOrdered) (hancestor : IsAncestor a b) : ¬ HaveOrder bases := by
  rintro ⟨order, horder⟩
  have hbmem : b.resolutionOrder ∈ bases.map resolutionOrder ++ [bases] :=
    List.mem_append_left _ (List.mem_map_of_mem (hab.subset (by simp)))
  exact not_sublist_pair horder.nodup
    ((hab.map key).trans (horder.keeps bases (by simp)))
    (((hb b a (.inl rfl) hancestor).map key).trans (horder.keeps _ hbmem))

theorem IsSeparated.at {earlier front later : List Schema} {b : Schema}
    (h : IsSeparated earlier (front ++ b :: later)) :
    (∃ c ∈ earlier ++ front, IsIn b c) ∨ ∀ c ∈ earlier ++ front, ∀ t, IsIn t c → ¬ IsIn t b := by
  induction front generalizing earlier with
  | nil =>
    rw [List.append_nil]
    exact h.1
  | cons c front ih =>
    rw [List.append_cons]
    exact ih h.2

/-! ## The bases of the result -/

/-- The bases of a schema but the root. -/
def properBases (s : Schema) : List Schema := s.bases.filter (!·.isRoot)

/-- The bases of two schemas in front of the root. -/
def rootedBases (source dest : Schema) : List Schema :=
  source.properBases ++
    dest.properBases.filter (fun b => !source.properBases.any (·.sameAs b)) ++ [root]

theorem exists_syncedBases (source dest : Schema) :
    ∃ more, source.syncedBases dest false = source.bases ++ more ∧
      more.Sublist (dest.bases.filter fun b => !source.bases.any (·.sameAs b)) := by
  have hseen (s t : Schema) : decide (s.key = t.key) = s.sameAs t :=
    (Bool.beq_eq_decide_eq _ _).symm
  obtain ⟨more, hmore, hsub, -⟩ := exists_appendNew key source.bases [dest.bases]
  simp only [List.flatten_singleton, hseen] at hsub
  exact ⟨more, (syncedBases_false source dest).trans hmore, hsub⟩

/-- The bases of the result stand in this order if the root stands last or not at all. -/
theorem sublist_rootedBases {proper : List Schema} (hproper : ∀ b ∈ proper, b.isRoot = false)
    (h : source.syncedBases dest false = proper ∨
      source.syncedBases dest false = proper ++ [root]) :
    (source.syncedBases dest false).Sublist (rootedBases source dest) := by
  obtain ⟨more, hmore, hsub⟩ := exists_syncedBases source dest
  have hroot : root.isRoot = true := by decide
  have hfilter : (source.syncedBases dest false).filter (!·.isRoot) = proper := by
    have hall : proper.filter (!·.isRoot) = proper :=
      List.filter_eq_self.2 fun b hb => by simp [hproper b hb]
    rcases h with h | h <;> rw [h]
    · exact hall
    · rw [List.filter_append, hall, List.filter_cons_of_neg (by simp [hroot]), List.filter_nil,
        List.append_nil]
  have hfront : proper.Sublist (source.properBases ++
      dest.properBases.filter fun b => !source.properBases.any (·.sameAs b)) := by
    rw [← hfilter, hmore, List.filter_append]
    refine (List.Sublist.refl _).append ((hsub.filter _).trans ?_)
    rw [properBases, properBases, List.filter_filter, List.filter_filter]
    refine List.monotone_filter_right _ fun b hb => ?_
    obtain ⟨hb, hnew⟩ := Bool.and_eq_true_iff.1 hb
    refine Bool.and_eq_true_iff.2 ⟨?_, hb⟩
    rw [Bool.not_eq_true', List.any_eq_false] at hnew ⊢
    exact fun c hc => hnew c (List.mem_of_mem_filter hc)
  rw [rootedBases]
  rcases h with h | h <;> rw [h]
  · exact hfront.trans (List.sublist_append_left _ _)
  · exact hfront.append (.refl _)

/-! ## The hierarchy of the result -/

/-- Whether the name and the module tell apart what comes together when a schema takes up the bases
of another one. -/
structure AreApart (source dest : Schema) : Prop where
  /-- The hierarchy of the source is told apart. -/
  isKeyed_source : source.IsKeyed
  /-- The hierarchy of the other schema and the ancestors of the source are told apart together. -/
  joint : ∀ t u, IsIn t dest ∨ IsAncestor t source → IsIn u dest ∨ IsAncestor u source →
    t.key = u.key → t = u
  /-- The source does not build on the other schema. -/
  acyclic : ¬ IsAncestor dest source

theorem mem_syncedBases {b : Schema} (hb : b ∈ source.syncedBases dest false) :
    b ∈ source.bases ∨ b ∈ dest.bases := by
  obtain ⟨more, hmore, hsub⟩ := exists_syncedBases source dest
  rw [hmore, List.mem_append] at hb
  exact hb.imp_right fun hb => List.mem_of_mem_filter (hsub.subset hb)

theorem bases_sync (source dest : Schema) :
    (source.sync dest false true).bases = source.syncedBases dest false := rfl

theorem of_isAncestor_sync {t : Schema} (ht : IsAncestor t (source.sync dest false true)) :
    IsAncestor t dest ∨ IsAncestor t source := by
  obtain ⟨b, hb, ht⟩ := isAncestor_iff.1 ht
  rcases mem_syncedBases hb with hb | hb
  · exact .inr (isAncestor_iff.2 ⟨b, hb, ht⟩)
  · exact .inl (isAncestor_iff.2 ⟨b, hb, ht⟩)

theorem AreApart.isKeyed_sync (h : AreApart source dest) :
    (source.sync dest false true).IsKeyed := by
  have hkey : (source.sync dest false true).key = dest.key := by rw [sync_eq]; rfl
  have hjoint {t : Schema} (ht : IsAncestor t (source.sync dest false true)) :
      IsIn t dest ∨ IsAncestor t source := (of_isAncestor_sync ht).imp_left .inr
  have hself {t : Schema} (ht : IsAncestor t (source.sync dest false true)) : t.key ≠ dest.key := by
    intro hkey
    obtain rfl := h.joint t dest (hjoint ht) (.inl (.inl rfl)) hkey
    rcases of_isAncestor_sync ht with ht | ht
    · exact not_isAncestor_self t ht
    · exact h.acyclic ht
  rintro t u (rfl | ht) (rfl | hu) hkeys
  · rfl
  · exact absurd (hkeys.symm.trans hkey) (hself hu)
  · exact absurd (hkeys.trans hkey) (hself ht)
  · exact h.joint t u (hjoint ht) (hjoint hu) hkeys

theorem AreApart.isKeyed (h : AreApart source dest) : dest.IsKeyed :=
  fun t u ht hu => h.joint t u (.inl ht) (.inl hu)

theorem AreApart.isOrdered_base (h : AreApart source dest) (hsource : source.IsOrdered)
    (hdest : dest.IsOrdered) {b : Schema} (hb : b ∈ source.syncedBases dest false) :
    b.IsOrdered := by
  rcases mem_syncedBases hb with hb | hb
  · exact hsource.of_isIn h.isKeyed_source (.inr (.single hb))
  · exact hdest.of_isIn h.isKeyed (.inr (.single hb))

/-- Two schemas with their hierarchies in order are given. The other one, once it has the bases of
both, has its hierarchy in order just if these bases have a consistent order or are separated. If
they have one with the root behind them, it is enough that the root stands last or not at all. It is
not in order if a base behind the root builds on the root, and no earlier base builds on that base.
In an ordered hierarchy a field is never found that a more derived schema overrides. -/
theorem isOrdered_sync (h : AreApart source dest) (hsource : source.IsOrdered)
    (hdest : dest.IsOrdered) :
    ((source.sync dest false true).IsOrdered ↔
      HaveOrder (source.syncedBases dest false) ∨
        IsSeparated [] (source.syncedBases dest false)) ∧
    (HaveOrder (rootedBases source dest) →
      ∀ proper : List Schema, (∀ b ∈ proper, b.isRoot = false) →
        source.syncedBases dest false = proper ∨
          source.syncedBases dest false = proper ++ [root] →
        (source.sync dest false true).IsOrdered) ∧
    (∀ earlier b later, source.syncedBases dest false = earlier ++ b :: later →
      root ∈ earlier → IsAncestor root b → (∀ c ∈ earlier, ¬ IsIn b c) →
        ¬ (source.sync dest false true).IsOrdered) ∧
    ((source.sync dest false true).IsOrdered →
      ∀ name f, (source.sync dest false true).get? name = some f →
        ∃ t, IsIn t (source.sync dest false true) ∧ t.fields.get? name = some f ∧
          ∀ u, IsIn u (source.sync dest false true) → IsAncestor t u →
            u.fields.get? name = none) := by
  have hiff : (source.sync dest false true).IsOrdered ↔
      HaveOrder (source.syncedBases dest false) ∨
        IsSeparated [] (source.syncedBases dest false) := by
    rw [isOrdered_iff h.isKeyed_sync]
    exact and_iff_right fun b hb => h.isOrdered_base hsource hdest hb
  refine ⟨hiff, fun hrooted proper hproper hbases => ?_, ?_, fun hordered name f hf => ?_⟩
  · exact hiff.2 (.inl (hrooted.sublist (sublist_rootedBases hproper hbases)))
  · intro earlier b later hbases hroot hancestor hnot hordered
    have hb : b.IsOrdered := h.isOrdered_base hsource hdest (by rw [hbases]; simp)
    rcases hiff.1 hordered with hconsistent | hseparated
    · refine not_haveOrder_of_behind ?_ hb hancestor hconsistent
      rw [hbases]
      exact (List.singleton_sublist.2 hroot).append ((List.nil_sublist later).cons_cons b)
    · rw [hbases] at hseparated
      rcases hseparated.at with ⟨c, hc, hbc⟩ | hdisjoint
      · exact hnot c hc hbc
      · exact hdisjoint root hroot root (.inl rfl) (.inr hancestor)
  · exact get?_of_isOrdered h.isKeyed_sync hordered hf

/-! ## A base behind the root -/

/-- A schema with a field. -/
def document : Schema := (hollow "Document" [root]).withFields [lineField "summary" "Summary"]

/-- A schema that builds on it. -/
def page : Schema := hollow "Page" [document, root]

/-- A schema that builds on it and overrides its field. -/
def report : Schema := (hollow "Report" [document, root]).withFields [lineField "summary" "Abstract"]

/-- A schema that takes up the page. -/
def imported (bases : List Schema) : Schema := hollow "Imported" (page :: bases)

/-- A schema that builds on the report. -/
def declared : Schema := hollow "Declared" [report, root]

theorem isAncestor_root {t : Schema} : ¬ IsAncestor t root := by
  intro ht
  obtain ⟨b, hb, -⟩ := isAncestor_iff.1 ht
  cases hb

theorem isAncestor_document {t : Schema} : IsAncestor t document ↔ t = root := by
  have hbases : document.bases = [root] := rfl
  rw [isAncestor_iff, hbases]
  simp [isAncestor_root]

theorem isAncestor_page {t : Schema} : IsAncestor t page ↔ t = document ∨ t = root := by
  have hbases : page.bases = [document, root] := rfl
  rw [isAncestor_iff, hbases]
  simp [isAncestor_document, isAncestor_root]

theorem isAncestor_report {t : Schema} : IsAncestor t report ↔ t = document ∨ t = root := by
  have hbases : report.bases = [document, root] := rfl
  rw [isAncestor_iff, hbases]
  simp [isAncestor_document, isAncestor_root]

theorem isAncestor_declared {t : Schema} :
    IsAncestor t declared ↔ t = report ∨ t = document ∨ t = root := by
  have hbases : declared.bases = [report, root] := rfl
  rw [isAncestor_iff, hbases]
  simp [isAncestor_report, isAncestor_root, or_assoc]

theorem isAncestor_imported {t : Schema} (bases : List Schema) (hroot : bases ⊆ [root]) :
    IsAncestor t (imported bases) ↔ t = page ∨ t = document ∨ t = root := by
  have hbases : (imported bases).bases = page :: bases := rfl
  have hrest : (∃ b ∈ bases, t = b ∨ IsAncestor t b) → t = root := by
    rintro ⟨b, hb, ht⟩
    obtain rfl := List.mem_singleton.1 (hroot hb)
    exact ht.resolve_right isAncestor_root
  rw [isAncestor_iff, hbases, List.exists_mem_cons_iff, isAncestor_page]
  constructor
  · rintro ((h | h) | h)
    · exact .inl h
    · exact .inr h
    · exact .inr (.inr (hrest h))
  · rintro (h | h)
    · exact .inl (.inl h)
    · exact .inl (.inr h)

/-- Schemas of a list with distinct keys are told apart. -/
theorem isKeyed_of_mem {s : Schema} (members : List Schema) (hkeys : (members.map key).Nodup)
    (h : ∀ t, IsIn t s → t ∈ members) : s.IsKeyed :=
  fun t u ht hu => List.inj_on_of_nodup_map hkeys (h t ht) (h u hu)

theorem isOrdered_of_merge {s : Schema} (h : s.IsKeyed) (hbases : ∀ b ∈ s.bases, b.IsOrdered)
    (hmerge : (merge key s.baseSequences).isSome = true) : s.IsOrdered :=
  .of_bases h hbases (.inl (isSome_merge_iff.1 hmerge))

theorem isOrdered_root : root.IsOrdered := by
  have hkeyed : root.IsKeyed := isKeyed_of_mem [root] (by decide)
    fun t ht => by simpa [isAncestor_root, IsIn] using ht
  exact isOrdered_of_merge hkeyed (List.forall_mem_nil _) (by cbv)

theorem isOrdered_document : document.IsOrdered := by
  have hkeyed : document.IsKeyed := isKeyed_of_mem [document, root] (by decide)
    fun t ht => by simpa [isAncestor_document, IsIn] using ht
  exact isOrdered_of_merge hkeyed (List.forall_mem_singleton.2 isOrdered_root) (by cbv)

theorem isOrdered_page : page.IsOrdered := by
  have hkeyed : page.IsKeyed := isKeyed_of_mem [page, document, root] (by decide)
    fun t ht => by simpa [isAncestor_page, IsIn] using ht
  exact isOrdered_of_merge hkeyed (List.forall_mem_cons.2
    ⟨isOrdered_document, List.forall_mem_singleton.2 isOrdered_root⟩) (by cbv)

theorem isOrdered_report : report.IsOrdered := by
  have hkeyed : report.IsKeyed := isKeyed_of_mem [report, document, root] (by decide)
    fun t ht => by simpa [isAncestor_report, IsIn] using ht
  exact isOrdered_of_merge hkeyed (List.forall_mem_cons.2
    ⟨isOrdered_document, List.forall_mem_singleton.2 isOrdered_root⟩) (by cbv)

theorem isOrdered_declared : declared.IsOrdered := by
  have hkeyed : declared.IsKeyed :=
    isKeyed_of_mem [declared, report, document, root] (by decide)
      fun t ht => by simpa [isAncestor_declared, IsIn] using ht
  exact isOrdered_of_merge hkeyed (List.forall_mem_cons.2
    ⟨isOrdered_report, List.forall_mem_singleton.2 isOrdered_root⟩) (by cbv)

theorem areApart_imported {bases : List Schema} (hroot : bases ⊆ [root]) :
    AreApart (imported bases) declared := by
  have hkeys : ([imported bases, page, document, root].map key).Nodup := by
    change [("Imported", "tests"), page.key, document.key, root.key].Nodup
    decide
  refine ⟨isKeyed_of_mem _ hkeys ?_, fun t u ht hu => ?_, fun h => ?_⟩
  · intro t ht
    simpa [isAncestor_imported bases hroot, IsIn] using ht
  · have hmem (t : Schema) (ht : IsIn t declared ∨ IsAncestor t (imported bases)) :
        t ∈ [declared, report, page, document, root] := by
      rw [IsIn, isAncestor_declared, isAncestor_imported bases hroot] at ht
      simp only [List.mem_cons, List.not_mem_nil, or_false]
      tauto
    exact List.inj_on_of_nodup_map (f := key) (by decide) (hmem t ht) (hmem u hu)
  · rw [isAncestor_imported bases hroot] at h
    have hkey : declared.key = page.key ∨ declared.key = document.key ∨ declared.key = root.key :=
      h.imp (congrArg key) (Or.imp (congrArg key) (congrArg key))
    exact absurd hkey (by decide)

theorem isOrdered_imported {bases : List Schema} (hroot : bases ⊆ [root])
    (hmerge : (merge key (imported bases).baseSequences).isSome = true) :
    (imported bases).IsOrdered := by
  refine isOrdered_of_merge (areApart_imported hroot).isKeyed_source
    (List.forall_mem_cons.2 ⟨isOrdered_page, fun b hb => ?_⟩) hmerge
  obtain rfl := List.mem_singleton.1 (hroot hb)
  exact isOrdered_root

theorem haveOrder_rootedBases_imported (bases : List Schema)
    (hroot : bases.filter (!·.isRoot) = []) : HaveOrder (rootedBases (imported bases) declared) := by
  have hbases : (imported bases).properBases = [page] := by
    have hpage : page.isRoot = false := by decide
    rw [properBases, imported, hollow, List.filter_cons_of_pos (by simp [hpage]), hroot]
  have hrooted : rootedBases (imported bases) declared = [page, report, root] := by
    rw [rootedBases, hbases]
    cbv
  rw [hrooted]
  exact haveOrder_iff.2 (by cbv)

/-- The root stands last if the source does not have it, and it stands in front of the report if the
source does. -/
theorem isOrdered_sync_imported :
    AreApart (imported []) declared ∧ (imported []).IsOrdered ∧ declared.IsOrdered ∧
      HaveOrder (rootedBases (imported []) declared) ∧
      ((imported []).sync declared false true).IsOrdered ∧
      ¬ ((imported [root]).sync declared false true).IsOrdered := by
  have hapart := areApart_imported (List.nil_subset [root])
  have hapart' := areApart_imported (List.Subset.refl [root])
  have hordered : (imported []).IsOrdered :=
    isOrdered_imported (List.nil_subset [root]) (by cbv)
  have hordered' : (imported [root]).IsOrdered :=
    isOrdered_imported (List.Subset.refl [root]) (by cbv)
  have hrooted := haveOrder_rootedBases_imported [] rfl
  obtain ⟨-, hlast, -, -⟩ := isOrdered_sync hapart hordered isOrdered_declared
  obtain ⟨-, -, hbehind, -⟩ := isOrdered_sync hapart' hordered' isOrdered_declared
  have hproper : ∀ b ∈ [page, report], b.isRoot = false := by decide
  refine ⟨hapart, hordered, isOrdered_declared, hrooted,
    hlast hrooted [page, report] hproper (.inr (by cbv)),
    hbehind [page, root] report [] (by cbv) (by simp) (isAncestor_report.2 (.inr rfl)) ?_⟩
  intro c hc hin
  have hkey : report.key ∈ [page.key, document.key, root.key] := by
    rcases List.mem_cons.1 hc with rfl | hc
    · rw [IsIn, isAncestor_page] at hin
      rcases hin with h | h | h <;> simp [← h]
    · obtain rfl := List.mem_singleton.1 hc
      simp [← hin.resolve_right isAncestor_root]
  exact absurd hkey (by decide)

theorem syncedBases_imported :
    (imported [root]).syncedBases declared false = [page, root, report] := by cbv

/-- With the root between them, the page and the report have no order as bases. -/
theorem resolutionOrder_of_bases {s : Schema} (hkey : s.key = declared.key)
    (hbases : s.bases = [page, root, report]) :
    s.resolutionOrder = [s, page, document, root, report] := by
  have horders : s.bases.map resolutionOrder =
      [[page, document, root], [root], [report, document, root]] := by
    rw [hbases]
    cbv
  have hmerge : merge key s.baseSequences = none := by
    have hnone : ¬ HaveOrder s.bases := not_haveOrder_of_behind (a := root) (b := report)
      (by simp [hbases]) isOrdered_report (isAncestor_report.2 (.inr rfl))
    rwa [haveOrder_iff, Option.not_isSome_iff_eq_none] at hnone
  rw [resolutionOrder_of_not_merge hmerge, horders]
  obtain ⟨name, module, bases, fields, tags, fieldsets, invariants⟩ := s
  cases hkey
  cbv

/-- The bases of both schemas have an order with the root behind them, but the root stands in front
of the report, so that the document comes before the report and hides the field that overrides its
own. -/
theorem not_isOrdered_sync_imported :
    AreApart (imported [root]) declared ∧ (imported [root]).IsOrdered ∧ declared.IsOrdered ∧
      HaveOrder (rootedBases (imported [root]) declared) ∧
      ¬ ((imported [root]).sync declared false true).IsOrdered ∧
      IsAncestor document report ∧
      (((imported [root]).sync declared false true).get? "summary").map (·.title) =
        some (.text "Summary") ∧
      (report.fields.get? "summary").map (·.title) = some (.text "Abstract") := by
  have hapart := areApart_imported (List.Subset.refl [root])
  have hordered : (imported [root]).IsOrdered :=
    isOrdered_imported (List.Subset.refl [root]) (by cbv)
  have hroot : root.isRoot = true := by decide
  have hrooted := haveOrder_rootedBases_imported [root] (by simp [hroot])
  have hancestor : IsAncestor document report := isAncestor_report.2 (.inl rfl)
  have horder := resolutionOrder_of_bases (s := (imported [root]).sync declared false true)
    (by rw [sync_eq]; rfl) (by rw [bases_sync, syncedBases_imported])
  have hget : (((imported [root]).sync declared false true).get? "summary").map (·.title) =
      some (.text "Summary") := by
    rw [get?, horder]
    cbv
  refine ⟨hapart, hordered, isOrdered_declared, hrooted, fun h => ?_, hancestor, hget, by cbv⟩
  have hreport : IsIn report ((imported [root]).sync declared false true) :=
    .inr (.single (by rw [bases_sync, syncedBases_imported]; simp))
  have hsub := (h report document hreport hancestor).map key
  rw [horder, List.map_cons] at hsub
  exact absurd hsub (by rw [sync_eq]; decide)

end ContentSchema.Schema
