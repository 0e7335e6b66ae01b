import ContentSchema.Loader
import ContentSchema.Proofs.Lists
import Mathlib.Data.List.Induction

/-!
# Models that a loader keeps

A loader is called again and again while the files change: `Event` is a call with the file system as
the call finds it, and `Loader.run` what a loader has become after some of them. `Loader.Stores` says
that a call reads a file and keeps its model; no other call but clearing changes what is kept
(`Loader.cached?_after`).

Result: what is kept for a file and a policy is the model that the last call stored there since the
loader was cleared, and it is that model which loads give (`Loader.cached?_run`).
-/
namespace ContentSchema

open Document (Context)

/-! ## Calls -/

/-- A call of a loader. -/
inductive Call where
  /-- Loads the model of a file. -/
  | load (path policy : String) (reload : Bool)
  /-- Loads one schema of a file. -/
  | schema (path name policy : String)
  /-- Keeps no model any more. -/
  | clear

/-- The path, the policy and whether reloading is asked for, if the call loads a model. -/
def Call.request? : Call → Option (String × String × Bool)
  | .load path policy reload => some (path, policy, reload)
  | .schema path _ policy => some (path, policy, false)
  | .clear => none

/-- A call at a time. -/
structure Event where
  /-- The call. -/
  call : Call
  /-- The file system as the call finds it. -/
  files : FileSystem
  /-- The number of the next field. -/
  first : Nat

namespace Loader

/-- The loader after a call. -/
def after (l : Loader) (e : Event) : Loader :=
  match e.call with
  | .load path policy reload => (l.load e.files path policy reload e.first).2.1
  | .schema path name policy => (l.loadSchema e.files path name policy e.first).2.1
  | .clear => l.clear

/-- The loader after calls. -/
def run (l : Loader) (es : List Event) : Loader := es.foldl after l

/-- Whether a call fails. -/
def Fails (l : Loader) (e : Event) : Prop :=
  match e.call with
  | .load path policy reload => ∃ cause, (l.load e.files path policy reload e.first).1 = .error cause
  | .schema path name policy =>
    ∃ cause, (l.loadSchema e.files path name policy e.first).1 = .error cause
  | .clear => False

/-- Whether a model is that of a document of a file under a policy, with the file noted on all of its
schemas. -/
def IsModelOf (l : Loader) (names : List String) (policy document : String) (first : Nat)
    (m : Model) : Prop :=
  ∃ model n, l.context.parse (some (l.absolutePath names)) policy document first = (.ok model, n) ∧
    m = noteFile (l.absolutePath names) model

/-- Whether a call reads the model of a file under a policy, because none is kept or reloading is
asked for. -/
def Stores (l : Loader) (e : Event) (names : List String) (policy : String) (m : LoadedModel) :
    Prop :=
  ∃ path reload document, e.call.request? = some (path, policy, reload) ∧
    e.files.locate path = .ok (some names) ∧ (reload = true ∨ l.cached? names policy = none) ∧
    e.files.textAt (some names) = .ok document ∧
    l.IsModelOf names policy document e.first m.model ∧ m.number = l.loads

/-- Whether a model is the last one that calls stored for a file and a policy, and the loader was not
cleared afterwards. -/
def LastStored (l : Loader) (es : List Event) (names : List String) (policy : String)
    (m : LoadedModel) : Prop :=
  ∃ before e later, es = before ++ e :: later ∧ (l.run before).Stores e names policy m ∧
    ∀ between e' rest, later = between ++ e' :: rest → e'.call ≠ .clear ∧
      ∀ m', ¬ (l.run (before ++ e :: between)).Stores e' names policy m'

/-! ## The models that are kept -/

section Kept

variable {l : Loader} {names : List String} {policy : String} {m : LoadedModel}

theorem cached?_keep (names' : List String) (policy' : String) :
    (l.keep names policy m).cached? names' policy' =
      if names' = names ∧ policy' = policy then some m else l.cached? names' policy' := by
  unfold cached? keep
  by_cases h : names' = names ∧ policy' = policy
  · obtain ⟨rfl, rfl⟩ := h
    simp
  · have hne : (names, policy) ≠ (names', policy') := fun heq =>
      h ⟨(Prod.mk.inj heq).1.symm, (Prod.mk.inj heq).2.symm⟩
    rw [if_neg h, List.find?_cons_of_neg (by simpa using hne), List.find?_filter]
    refine congrArg (Option.map (·.2)) (congrArg (l.cache.find? ·) (funext fun entry => ?_))
    by_cases hentry : entry.1 = (names', policy')
    · simp [hentry, Ne.symm hne]
    · simp [hentry]

/-- The file is noted on every schema. -/
theorem tag_of_noteFile {path : String} {model : Model} {entry : String × Schema}
    (h : entry ∈ (noteFile path model).entries) :
    entry.2.tags.get? filenameKey = some (.text path) := by
  obtain ⟨old, -, rfl⟩ := List.mem_map.1 h
  exact NameMap.get?_insert ..

end Kept

/-! ## What a load does -/

/-- A load fails and changes nothing, or gives the model that is kept, or reads the file and keeps its
model. -/
inductive Loads (l : Loader) (files : FileSystem) (path policy : String) (reload : Bool)
    (first : Nat) : Except LoadError LoadedModel × Loader × Nat → Prop
  /-- It fails. -/
  | fails {cause : LoadError} {n : Nat} : Loads l files path policy reload first (.error cause, l, n)
  /-- It gives the model that is kept. -/
  | hits {names : List String} {m : LoadedModel} (located : files.locate path = .ok (some names))
    (kept : reload = false) (found : l.cached? names policy = some m) :
    Loads l files path policy reload first (.ok m, l, first)
  /-- It reads the file. -/
  | reads {names : List String} {m : LoadedModel} {document : String} {n : Nat}
    (located : files.locate path = .ok (some names))
    (missed : reload = true ∨ l.cached? names policy = none)
    (text : files.textAt (some names) = .ok document)
    (model : l.IsModelOf names policy document first m.model) (number : m.number = l.loads) :
    Loads l files path policy reload first (.ok m, l.keep names policy m, n)

theorem loads_load (l : Loader) (files : FileSystem) (path policy : String) (reload : Bool)
    (first : Nat) :
    Loads l files path policy reload first (l.load files path policy reload first) := by
  have hread {names : List String} (located : files.locate path = .ok (some names))
      (missed : reload = true ∨ l.cached? names policy = none) :
      Loads l files path policy reload first (l.readFile files path names policy first) := by
    unfold readFile
    cases text : files.textAt (some names) with
    | error cause => exact .fails
    | ok document =>
      dsimp only
      cases hparse : l.context.parse (some (l.absolutePath names)) policy document first with
      | mk result n =>
        cases result with
        | error d => exact .fails
        | ok model => exact .reads located missed text ⟨model, n, hparse, rfl⟩ rfl
  unfold load
  split
  · exact .fails
  · exact .fails
  · rename_i names located
    cases reload with
    | true => exact hread located (.inl rfl)
    | false =>
      rw [if_neg Bool.false_ne_true]
      cases found : l.cached? names policy with
      | some m => exact .hits located rfl found
      | none => exact hread located (.inr found)

section After

variable {l : Loader} {e : Event} {path policy policy' : String} {reload : Bool}
  {names names' : List String} {m m' : LoadedModel}

/-- A call that loads a model changes the loader as the load does. -/
theorem after_eq (h : e.call.request? = some (path, policy, reload)) :
    l.after e = (l.load e.files path policy reload e.first).2.1 := by
  unfold after
  cases hcall : e.call with
  | load =>
    rw [hcall] at h
    cases h
    rfl
  | schema path name policy =>
    rw [hcall] at h
    cases h
    dsimp only
    unfold loadSchema
    split
    · rename_i hload
      rw [hload]
    · rename_i hload
      rw [hload]
      split <;> rfl
  | clear =>
    rw [hcall] at h
    cases h

/-- A call either clears, or leaves the loader as it was, or stores a model. -/
theorem after_cases (l : Loader) (e : Event) :
    e.call = .clear ∨ l.after e = l ∨
      ∃ names policy m, l.Stores e names policy m ∧ l.after e = l.keep names policy m := by
  cases hrequest : e.call.request? with
  | none =>
    refine .inl ?_
    cases hcall : e.call with
    | clear => rfl
    | load | schema =>
      rw [hcall] at hrequest
      cases hrequest
  | some request =>
    obtain ⟨path, policy, reload⟩ := request
    rw [after_eq hrequest]
    have hloads := l.loads_load e.files path policy reload e.first
    generalize l.load e.files path policy reload e.first = result at hloads
    cases hloads with
    | fails | hits => exact .inr (.inl rfl)
    | reads located missed text model number =>
      exact .inr (.inr ⟨_, policy, _,
        ⟨path, reload, _, hrequest, located, missed, text, model, number⟩, rfl⟩)

theorem load_of_stores (h : l.Stores e names policy m) :
    l.after e = l.keep names policy m := by
  obtain ⟨path, reload, document, hrequest, located, missed, text, ⟨model, n, hparse, hmodel⟩,
    number⟩ := h
  have hnone : (if reload then none else l.cached? names policy) = none := by
    rcases missed with rfl | missed
    · rfl
    · rw [missed, ite_self]
  have hm : m = ⟨l.loads, noteFile (l.absolutePath names) model⟩ := by rw [← hmodel, ← number]
  rw [hm, after_eq hrequest, load, located]
  dsimp only
  rw [hnone]
  dsimp only
  rw [readFile, text]
  dsimp only
  rw [hparse]

/-- What is kept after a call: what the call stored, or what was kept before, unless the call cleared
the loader or stored something else. -/
theorem cached?_after :
    (l.after e).cached? names policy = some m ↔
      l.Stores e names policy m ∨ e.call ≠ .clear ∧ (∀ m', ¬ l.Stores e names policy m') ∧
        l.cached? names policy = some m := by
  have hstored {m : LoadedModel} (h : l.Stores e names policy m) :
      (l.after e).cached? names policy = some m := by
    rw [load_of_stores h, cached?_keep, if_pos ⟨rfl, rfl⟩]
  have hkept (hclear : e.call ≠ .clear) (hnone : ∀ m', ¬ l.Stores e names policy m') :
      (l.after e).cached? names policy = l.cached? names policy := by
    rcases l.after_cases e with hcall | hsame | ⟨names', policy', m', hstores, hafter⟩
    · exact absurd hcall hclear
    · rw [hsame]
    · rw [hafter, cached?_keep, if_neg]
      rintro ⟨rfl, rfl⟩
      exact hnone m' hstores
  constructor
  · intro h
    by_cases hsome : ∃ m', l.Stores e names policy m'
    · obtain ⟨m', hm'⟩ := hsome
      rw [hstored hm'] at h
      exact .inl (Option.some.inj h ▸ hm')
    · have hnone := not_exists.1 hsome
      have hclear : e.call ≠ .clear := fun hcall => by
        rw [after, hcall] at h
        cases h
      exact .inr ⟨hclear, hnone, hkept hclear hnone ▸ h⟩
  · rintro (h | ⟨hclear, hnone, h⟩)
    · exact hstored h
    · rwa [hkept hclear hnone]

end After

/-! ## Many calls -/

section Run

variable {l : Loader} {es : List Event} {e : Event} {names : List String} {policy : String}
  {m : LoadedModel}

theorem run_append (l : Loader) (es : List Event) (e : Event) :
    l.run (es ++ [e]) = (l.run es).after e := by
  rw [run, List.foldl_append]
  rfl

/-- What was stored last after a further call is what this call stored, or what was before unless the
call cleared the loader or stored something else. -/
theorem lastStored_append :
    l.LastStored (es ++ [e]) names policy m ↔
      (l.run es).Stores e names policy m ∨ e.call ≠ .clear ∧
        (∀ m', ¬ (l.run es).Stores e names policy m') ∧ l.LastStored es names policy m := by
  constructor
  · rintro ⟨before, d, later, heq, hstores, hlast⟩
    rcases List.eq_nil_or_concat' later with rfl | ⟨between, c, rfl⟩
    · obtain ⟨rfl, hd⟩ := List.append_inj' heq rfl
      exact .inl (List.singleton_injective hd ▸ hstores)
    · rw [← List.cons_append, ← List.append_assoc] at heq
      obtain ⟨rfl, hc⟩ := List.append_inj' heq rfl
      cases List.singleton_injective hc
      obtain ⟨hclear, hnone⟩ := hlast between e [] rfl
      refine .inr ⟨hclear, hnone, before, d, between, rfl, hstores, fun front b rest hsplit => ?_⟩
      exact hlast front b (rest ++ [e]) (by rw [hsplit, List.append_assoc, List.cons_append])
  · rintro (hstores | ⟨hclear, hnone, before, d, later, rfl, hstores, hlast⟩)
    · exact ⟨es, e, [], rfl, hstores, fun between b rest hsplit =>
        absurd hsplit.symm (by simp)⟩
    · refine ⟨before, d, later ++ [e], by rw [List.append_assoc, List.cons_append], hstores,
        fun front b rest hsplit => ?_⟩
      rcases List.eq_nil_or_concat' rest with rfl | ⟨rest, c, rfl⟩
      · obtain ⟨rfl, hb⟩ := List.append_inj' hsplit rfl
        cases List.singleton_injective hb
        exact ⟨hclear, hnone⟩
      · rw [← List.cons_append, ← List.append_assoc] at hsplit
        exact hlast front b rest (List.append_inj' hsplit rfl).1

/-- A loader that began without models keeps those that were stored last. -/
theorem cached?_run_iff (hl : l.cache = []) :
    (l.run es).cached? names policy = some m ↔ l.LastStored es names policy m := by
  induction es using List.reverseRecOn with
  | nil =>
    have hnone : l.cached? names policy = none := by rw [cached?, hl]; rfl
    refine iff_of_false (fun h => ?_) fun ⟨before, e, later, h, _⟩ => ?_
    · rw [run, List.foldl_nil, hnone] at h
      cases h
    · exact absurd h.symm (by simp)
  | append_singleton es e ih =>
    rw [run_append, cached?_after, lastStored_append, ih]

/-- The context and the top directory stay. -/
theorem run_fixed (l : Loader) (es : List Event) :
    (l.run es).context = l.context ∧ (l.run es).top = l.top := by
  induction es using List.reverseRecOn with
  | nil => exact ⟨rfl, rfl⟩
  | append_singleton es e ih =>
    rw [run_append]
    rcases (l.run es).after_cases e with hcall | hsame | ⟨names, policy, m, -, hafter⟩
    · rw [after, hcall]
      exact ih
    · rw [hsame]
      exact ih
    · rw [hafter]
      exact ih

/-- There is one model for a file and a policy. -/
theorem nodup_run (hl : l.cache = []) (es : List Event) :
    ((l.run es).cache.map (·.1)).Nodup := by
  induction es using List.reverseRecOn with
  | nil =>
    rw [run, List.foldl_nil, hl]
    exact List.nodup_nil
  | append_singleton es e ih =>
    rw [run_append]
    rcases (l.run es).after_cases e with hcall | hsame | ⟨names, policy, m, -, hafter⟩
    · rw [after, hcall]
      exact List.nodup_nil
    · rw [hsame]
      exact ih
    · rw [hafter, keep, List.map_cons]
      refine List.nodup_cons.2 ⟨fun hmem => ?_, (List.filter_sublist.map _).nodup ih⟩
      obtain ⟨entry, hentry, hkey⟩ := List.mem_map.1 hmem
      exact bne_iff_ne.1 (List.mem_filter.1 hentry).2 hkey

end Run

/-! ## What is kept and what is given -/

section Results

variable {l : Loader} {e : Event} {path name policy : String} {reload : Bool} {first n : Nat}
  {files : FileSystem} {names : List String} {m : LoadedModel}

theorem load_of_cached (located : files.locate path = .ok (some names))
    (found : l.cached? names policy = some m) :
    l.load files path policy false first = (.ok m, l, first) := by
  rw [load, located]
  dsimp only
  rw [if_neg Bool.false_ne_true, found]

/-- A load gives a model that is kept afterwards for the file at the path and the policy. -/
theorem cached?_of_load {next : Loader}
    (h : l.load files path policy reload first = (.ok m, next, n)) :
    ∃ names, files.locate path = .ok (some names) ∧ next.cached? names policy = some m := by
  have hloads := l.loads_load files path policy reload first
  rw [h] at hloads
  cases hloads with
  | hits located kept found => exact ⟨_, located, found⟩
  | reads located missed text model number =>
    exact ⟨_, located, by rw [cached?_keep, if_pos ⟨rfl, rfl⟩]⟩

theorem load_of_loadSchema {next : Loader} {s : Schema}
    (h : l.loadSchema files path name policy first = (.ok s, next, n)) :
    ∃ m, l.load files path policy false first = (.ok m, next, n) ∧ m.model.get? name = some s := by
  unfold loadSchema at h
  split at h
  · cases h
  · rename_i m rest hload
    split at h
    · rename_i found hfound
      cases h
      exact ⟨m, hload, hfound⟩
    · cases h

/-- A load that fails changes nothing. -/
theorem eq_of_load_error {cause : LoadError} {next : Loader}
    (h : l.load files path policy reload first = (.error cause, next, n)) : next = l := by
  have hloads := l.loads_load files path policy reload first
  rw [h] at hloads
  cases hloads
  rfl

/-- A call that fails leaves what is kept alone. It may keep one model more, in which the schema is
missing that was asked for. -/
theorem cached?_of_fails (h : l.Fails e) (hm : l.cached? names policy = some m) :
    (l.after e).cached? names policy = some m := by
  unfold Fails at h
  cases hcall : e.call with
  | clear =>
    rw [hcall] at h
    cases h
  | load path policy' reload =>
    rw [hcall] at h
    obtain ⟨cause, h⟩ := h
    have hsame : (l.load e.files path policy' reload e.first).2.1 = l :=
      eq_of_load_error (Prod.ext h rfl)
    rwa [after_eq (by rw [hcall]; rfl), hsame]
  | schema path name policy' =>
    refine cached?_after.2 (.inr ⟨by rw [hcall]; nofun, fun m' hstores => ?_, hm⟩)
    -- without reloading a file is read only when no model of it is kept
    obtain ⟨path', reload, document, hrequest, -, hmissed, -⟩ := hstores
    rw [hcall] at hrequest
    cases hrequest
    rcases hmissed with hreload | hmissed
    · cases hreload
    · rw [hmissed] at hm
      cases hm

/-- The cache of a loader that began without models, after any calls, while the files change in
between. There is one entry for a file and a policy, and it is the model that was stored there last:
read under that policy from the text that the file had then, with the file noted on all schemas. It is
given for every path to the file until reloading is asked for, whatever the file holds; a load gives
no model of another file or policy; and a call that fails leaves all entries alone. -/
theorem cached?_run (hl : l.cache = []) (es : List Event) :
    ((l.run es).cache.map (·.1)).Nodup ∧
    (∀ names policy m,
      (l.run es).cached? names policy = some m ↔ l.LastStored es names policy m) ∧
    (∀ names policy m, (l.run es).cached? names policy = some m →
      ∀ entry ∈ m.model.entries,
        entry.2.tags.get? filenameKey = some (.text (l.absolutePath names))) ∧
    (∀ (files : FileSystem) path names policy m first, files.locate path = .ok (some names) →
      (l.run es).cached? names policy = some m →
      (l.run es).load files path policy false first = (.ok m, l.run es, first)) ∧
    (∀ files path policy reload first m next n,
      (l.run es).load files path policy reload first = (.ok m, next, n) →
      ∃ names document k, files.locate path = .ok (some names) ∧
        next.cached? names policy = some m ∧ l.IsModelOf names policy document k m.model) ∧
    (∀ files path name policy first s next n,
      (l.run es).loadSchema files path name policy first = (.ok s, next, n) →
      ∃ m, (l.run es).load files path policy false first = (.ok m, next, n) ∧
        m.model.get? name = some s) ∧
    ∀ e, (l.run es).Fails e → ∀ names policy m, (l.run es).cached? names policy = some m →
      ((l.run es).after e).cached? names policy = some m := by
  have hmodel {es : List Event} {names : List String} {policy : String} {m : LoadedModel}
      (h : (l.run es).cached? names policy = some m) :
      ∃ document k, l.IsModelOf names policy document k m.model := by
    obtain ⟨before, e, later, -, ⟨path, reload, document, -, -, -, -, hmodel, -⟩, -⟩ :=
      (cached?_run_iff hl).1 h
    obtain ⟨hcontext, htop⟩ := l.run_fixed before
    refine ⟨document, e.first, ?_⟩
    unfold IsModelOf absolutePath at hmodel ⊢
    rwa [hcontext, htop] at hmodel
  refine ⟨nodup_run hl es, fun names policy m => cached?_run_iff hl, fun names policy m h => ?_,
    fun _ _ _ _ _ _ => load_of_cached, fun files path policy reload first m next n h => ?_,
    fun _ _ _ _ _ _ _ _ => load_of_loadSchema, fun e h names policy m => cached?_of_fails h⟩
  · obtain ⟨document, k, model, n, -, hnoted⟩ := hmodel h
    rw [hnoted]
    exact fun entry => tag_of_noteFile
  · obtain ⟨names, hlocated, hkept⟩ := cached?_of_load h
    have hnext : l.run (es ++ [⟨.load path policy reload, files, first⟩]) = next := by
      rw [run_append]
      exact congrArg (·.2.1) h
    rw [← hnext] at hkept
    obtain ⟨document, k, hdocument⟩ := hmodel hkept
    exact ⟨names, document, k, hlocated, hnext ▸ hkept, hdocument⟩

end Results

/-- A file system with one file. -/
def oneFile (document : String) : FileSystem :=
  ({ nodes := [(["m.xml"], .file document.toUTF8)] } : FileTree)

/-- Loads of a file that changes: it is read, found to be kept, read again, and then not readable as a
model; in the end a schema is missing. -/
def changingFile : List Event :=
  let first := oneFile "<model><schema name=\"a\"/></model>"
  let second := oneFile "<model><schema name=\"b\"/></model>"
  let broken := oneFile "<model>"
  [⟨.load "m.xml" "" false, first, 1⟩, ⟨.load "./m.xml" "" false, second, 1⟩,
    ⟨.load "m.xml" "" true, second, 1⟩, ⟨.load "m.xml" "" true, broken, 1⟩,
    ⟨.schema "m.xml" "a" "", broken, 1⟩]

/-- Of the changing file the second model is kept. -/
theorem cached?_run_changing :
    ∃ m, m.number = 1 ∧ m.model.names = ["b"] ∧
      LastStored { top := "/d" } changingFile ["m.xml"] "" m := by
  have hkept : ((run { top := "/d" } changingFile).cached? ["m.xml"] "").map (fun m =>
      (m.number, m.model.names)) = some (1, ["b"]) := by decide +kernel
  obtain ⟨m, hm, hfound⟩ := Option.map_eq_some_iff.1 hkept
  obtain ⟨hnumber, hnames⟩ := Prod.mk.inj hfound
  exact ⟨m, hnumber, hnames, ((cached?_run rfl changingFile).2.1 _ _ m).1 hm⟩

end Loader
end ContentSchema
