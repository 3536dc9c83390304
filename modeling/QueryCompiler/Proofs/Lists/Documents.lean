import QueryCompiler.Proofs.Lists.Tagging
/-
# What the list pass leaves of documents

A definition of the type system selects nothing, and the list pass only looks for faults in it.
Definitions that select something are left settled (`DefinitionSettles`), and so are documents
(`Settles`), whether or not the pass has replaced something in them.

* `tagDocuments_settles`: what a run over some documents leaves.
-/
namespace QueryCompiler

namespace Tagging

variable {α β : Type} {c : Config} {P : Argument → Prop}

/-! ## 1. Definitions -/

section TypeSystem

/-- Nothing is said of the result. -/
abbrev Harmless (c : Config) (P : Argument → Prop) (m : Tagging α) : Prop :=
  Sound c P m fun _ _ _ => True

theorem Harmless.pure (a : α) : Harmless c P (pure a : Tagging α) := Sound.pure fun _ _ => trivial

theorem Harmless.bind {m : Tagging α} {f : α → Tagging β} (hm : Harmless c P m)
    (hf : ∀ a, Harmless c P (f a)) : Harmless c P (m >>= f) :=
  Sound.bind hm fun a => (hf a).weaken fun _ _ _ _ _ => trivial

theorem Harmless.mapM {f : α → Tagging β} (hf : ∀ a, Harmless c P (f a)) (as : List α) :
    Harmless c P (as.mapM f) := (Sound.mapM fun a _ => hf a).weaken fun _ _ _ _ => trivial

variable {f : List Directive → Tagging (List Directive)} (hf : ∀ ds, Harmless c P (f ds))

include hf

theorem harmless_inputValue (v : InputValueDefinition) : Harmless c P (v.traverseDirectives f) :=
  (hf _).bind fun _ => .pure _

theorem harmless_field (d : FieldDefinition) : Harmless c P (d.traverseDirectives f) :=
  (Harmless.mapM (harmless_inputValue hf) _).bind fun _ => (hf _).bind fun _ => .pure _

theorem harmless_body : ∀ body : TypeBody, Harmless c P (body.traverseDirectives f)
  | .scalar => .pure _
  | .object _ _ => (Harmless.mapM (harmless_field hf) _).bind fun _ => .pure _
  | .interface _ _ => (Harmless.mapM (harmless_field hf) _).bind fun _ => .pure _
  | .union _ => .pure _
  | .enumeration _ =>
    (Harmless.mapM (fun _ => (hf _).bind fun _ => .pure _) _).bind fun _ => .pure _
  | .inputObject _ => (Harmless.mapM (harmless_inputValue hf) _).bind fun _ => .pure _

theorem harmless_type (t : TypeDefinition) : Harmless c P (t.traverseDirectives f) :=
  (hf _).bind fun _ => (harmless_body hf _).bind fun _ => .pure _

theorem harmless_schema (s : SchemaDefinition) : Harmless c P (s.traverseDirectives f) :=
  (hf _).bind fun _ => .pure _

theorem harmless_directive (d : DirectiveDefinition) : Harmless c P (d.traverseDirectives f) :=
  (Harmless.mapM (harmless_inputValue hf) _).bind fun _ => .pure _

end TypeSystem

/-- What is left of a definition that may select something, and which lists are registered. -/
structure DefinitionSettles (c : Config) (r : Registry) (replaced : Bool)
    (d d' : Definition) : Prop where
  result : Executable.ofDefinition? d' = (Executable.ofDefinition? d).map (·.settled c)
  kept : replaced = false →
    (Executable.ofDefinition? d).map (·.settled c) = Executable.ofDefinition? d
  registered : ∀ e, Executable.ofDefinition? d = some e →
    EveryIn (Registered c r) [e.ancestor] e.selections

theorem sound_definition (filename : String) (d : Definition)
    (hu : ∀ e, Executable.ofDefinition? d = some e → MarksIn c P e.selections) :
    Sound c P (definition c filename d) fun r replaced d' =>
      DefinitionSettles c r replaced d d' := by
  have hdirectives (ds : List Directive) : Harmless c P (directives c filename ds) :=
    (sound_directives filename ds).weaken fun _ _ _ _ => trivial
  -- a definition of the type system selects nothing, before or after
  have hother {α : Type} {m : Tagging α} {make : α → Definition} (hm : Harmless c P m)
      (hd : Executable.ofDefinition? d = none)
      (hmake : ∀ a, Executable.ofDefinition? (make a) = none) :
      Sound c P (make <$> m) fun r replaced d' => DefinitionSettles c r replaced d d' := by
    rw [map_eq_pure_bind]
    refine Sound.bind hm fun a => Sound.pure fun r replaced _ => ⟨?_, fun _ => ?_, fun e he => ?_⟩
    · rw [hmake, hd, Option.map_none]
    · rw [hd, Option.map_none]
    · exact absurd (hd.symm.trans he) nofun
  cases d with
  | operation o =>
    rw [definition]
    have hdeclaration (v : VariableDefinition) : Sound c P
        (do return { v with directives := ← directives c filename v.directives })
        fun _ _ v' => v' = v :=
      (sound_directives filename v.directives).bind fun ds =>
        Sound.pure fun _ _ hds => by rw [hds]
    refine (Sound.mapM fun v _ => hdeclaration v).bind fun declarations => ?_
    refine (sound_directives filename o.directives).bind fun ds => ?_
    refine (sound_selections filename o.selections _ (hu _ rfl)).bind fun below =>
      Sound.pure fun r replaced => ?_
    rintro ⟨rfl, hkept, hevery⟩ rfl hdeclarations
    obtain rfl : declarations = o.declarations :=
      (List.forall₂_eq_eq_eq ▸ List.Forall₂.flip hdeclarations : declarations = o.declarations)
    refine ⟨rfl, fun hr => ?_, fun e he => ?_⟩
    · exact congrArg (fun ss => some (Executable.operation { o with selections := ss })) (hkept hr)
    · cases he
      exact hevery
  | fragment fr =>
    rw [definition]
    refine (sound_directives filename fr.directives).bind fun ds => ?_
    refine (sound_selections filename fr.selections _ (hu _ rfl)).bind fun below =>
      Sound.pure fun r replaced => ?_
    rintro ⟨rfl, hkept, hevery⟩ rfl
    refine ⟨rfl, fun hr => ?_, fun e he => ?_⟩
    · exact congrArg (fun ss => some (Executable.fragment { fr with selections := ss })) (hkept hr)
    · cases he
      exact hevery
  | schema s => exact hother (harmless_schema hdirectives s) rfl fun _ => rfl
  | type t => exact hother (harmless_type hdirectives t) rfl fun _ => rfl
  | directive t => exact hother (harmless_directive hdirectives t) rfl fun _ => rfl

end Tagging

/-! ## 2. Documents -/

open Tagging

variable {c : Config} {P : Argument → Prop}

/-- What is left of a document, and which lists are registered. -/
structure Settles (c : Config) (r : Registry) (d d' : Document) : Prop where
  executables : d'.executables = d.executables.map (·.settled c)
  registered : ∀ e ∈ d.executables, EveryIn (Registered c r) [e.ancestor] e.selections

/-- What holds of all fields in settled selections holds of those that the pass leaves. -/
theorem Settles.everyIn {r : Registry} {d d' : Document} {Q : FieldProperty} (h : Settles c r d d')
    (hQ : ∀ e ∈ d.executables, EveryIn Q [e.ancestor] (settledAll c [e.ancestor] e.selections)) :
    ∀ e ∈ d'.executables, EveryIn Q [e.ancestor] e.selections := by
  rw [h.executables]
  refine List.forall_mem_map.mpr fun e he => ?_
  have hsettled := hQ e he
  cases e <;> exact hsettled

theorem executables_settled {r : Registry} {replaced : Bool} : ∀ {ds ds' : List Definition},
    List.Forall₂ (DefinitionSettles c r replaced) ds ds' →
      ds'.filterMap Executable.ofDefinition?
          = (ds.filterMap Executable.ofDefinition?).map (·.settled c) ∧
        (replaced = false → (ds.filterMap Executable.ofDefinition?).map (·.settled c)
          = ds.filterMap Executable.ofDefinition?) ∧
        ∀ e ∈ ds.filterMap Executable.ofDefinition?,
          EveryIn (Registered c r) [e.ancestor] e.selections
  | _, _, .nil => ⟨rfl, fun _ => rfl, fun _ he => absurd he List.not_mem_nil⟩
  | d :: ds, d' :: ds', .cons hd hds => by
    obtain ⟨hresult, hkept, hregistered⟩ := executables_settled hds
    rw [List.filterMap_cons, List.filterMap_cons, hd.result]
    cases he : Executable.ofDefinition? d with
    | none => exact ⟨hresult, hkept, hregistered⟩
    | some e =>
      refine ⟨congrArg (e.settled c :: ·) hresult, fun hr => ?_, ?_⟩
      · have hsame := hd.kept hr
        rw [he, Option.map_some, Option.some.injEq] at hsame
        exact List.cons_eq_cons.mpr ⟨hsame, hkept hr⟩
      · exact List.forall_mem_cons.mpr ⟨hd.registered e he, hregistered⟩

theorem tagDocument_settles {st st' : TagState} {d d' : Document} (hu : d.MarksIn c P)
    (h : tagDocument c st d = (.ok d', st')) :
    (RegistryMarks c P st.registry → RegistryMarks c P st'.registry) ∧
      ∀ r, LeadsTo st' r true → LeadsTo st r true ∧ Settles c r d d' := by
  have hsound : Sound c P (d.definitions.mapM (definition c d.filename)) fun r replaced ds =>
      List.Forall₂ (fun d d' => DefinitionSettles c r replaced d d') d.definitions ds :=
    Sound.mapM fun definition hd => sound_definition d.filename definition fun e he =>
      hu e (List.mem_filterMap.mpr ⟨definition, hd, he⟩)
  rw [tagDocument] at h
  split at h
  · rename_i definitions st₁ hrun
    obtain ⟨hd, rfl⟩ := Prod.mk.inj h
    obtain rfl := Except.ok.inj hd
    have hpass : Runs (d.definitions.mapM (definition c d.filename)) { st with changed := false }
        definitions st₁ := hrun
    have hcaptured := hsound.captured hpass
    refine ⟨hcaptured, fun r hl => ?_⟩
    have hl₁ : LeadsTo st₁ r st₁.changed := ⟨hl.errors, hl.registry, id⟩
    obtain ⟨hl₀, hall⟩ := hsound.result hpass hl₁
    obtain ⟨hresult, hkept, hregistered⟩ := executables_settled hall
    refine ⟨⟨hl₀.errors, hl₀.registry, fun _ => rfl⟩, ?_, hregistered⟩
    split
    · exact hresult
    · rename_i hchanged
      exact (hkept (by simpa using hchanged)).symm
  · exact absurd (Prod.mk.inj h).1 nofun

/-- **A run over some documents** that succeeds without faults leaves every document settled, and
all lists in them are registered. -/
theorem tagDocuments_settles : ∀ {documents documents' : List Document} {st st' : TagState},
    (∀ d ∈ documents, d.MarksIn c P) → tagDocuments c st documents = (documents', st', .ok ()) →
      (RegistryMarks c P st.registry → RegistryMarks c P st'.registry) ∧
        ∀ r, LeadsTo st' r true →
          LeadsTo st r true ∧ List.Forall₂ (Settles c r) documents documents'
  | [], documents', st, st', _, h => by
    obtain ⟨rfl, hst⟩ := Prod.mk.inj h
    obtain ⟨rfl, -⟩ := Prod.mk.inj hst
    exact ⟨id, fun r hl => ⟨hl, .nil⟩⟩
  | d :: documents, documents', st, st', hu, h => by
    obtain ⟨hd, hds⟩ := List.forall_mem_cons.mp hu
    rw [tagDocuments] at h
    split at h
    · exact absurd (Prod.mk.inj (Prod.mk.inj h).2).2 nofun
    · rename_i d' st₁ hfirst
      obtain ⟨hcaptured, hsettles⟩ := tagDocument_settles hd hfirst
      rcases hrest : tagDocuments c st₁ documents with ⟨rest, st₂, result⟩
      rw [hrest] at h
      obtain ⟨rfl, hst⟩ := Prod.mk.inj h
      obtain ⟨rfl, rfl⟩ := Prod.mk.inj hst
      obtain ⟨hcaptured', hall⟩ := tagDocuments_settles hds hrest
      refine ⟨fun hr => hcaptured' (hcaptured hr), fun r hl => ?_⟩
      obtain ⟨hl₁, hrest'⟩ := hall r hl
      obtain ⟨hl₀, hfirst'⟩ := hsettles r hl₁
      exact ⟨hl₀, .cons hfirst' hrest'⟩

end QueryCompiler
