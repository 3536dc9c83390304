import QueryCompiler.Proofs.Artifact.Sent
import QueryCompiler.Proofs.Selection.Pieces
/-
# Two ways to know the type of a field

The builder goes down the selections of a definition with the type at hand and looks every field up
in it.  All other passes replay the ancestors of a field from its definition down
(`Schema.typeAt`).  Both come to the same type, at every field that the builder gets to, in the
definition itself or in a fragment that it spreads, and also when the build fails later on
(`ArtifactContext.visits_resolve`).

What the builder gets to is seen from a build that keeps a log of its fields (`Logged`).  It is the
build of `Compilation.tree` line by line, and has the same outcome for every document
(`ArtifactContext.selectionLogged_outcome`).
-/
namespace QueryCompiler

/-! ## 1. Fields that the builder gets to -/

/-- A field that the builder gets to, where it stands, and the type that it is looked up in. -/
structure FieldVisit where
  site : Site
  field : FieldHead
  selections : List Selection
  parent : Option NamedType

namespace FieldVisit

/-- The definition that the builder finds for the field.  The field for the name of the type is not
looked up: every type has it, and none defines it. -/
def definition? (v : FieldVisit) : Option SchemaField :=
  if v.field.name = typenameField then none else v.parent.bind (·.field? v.field.name)

/-- The field stands in the selections at a site, on any level. -/
inductive StandsIn (v : FieldVisit) : Site → List Selection → Prop
  | here {ss : List Selection} : .field v.field v.selections ∈ ss → StandsIn v v.site ss
  | field {site : Site} {ss below : List Selection} {head : FieldHead} :
      .field head below ∈ ss → StandsIn v (site.under (.field head)) below → StandsIn v site ss
  | inline {site : Site} {ss below : List Selection} {condition : Option String}
      {directives : List Directive} : .inline condition directives below ∈ ss →
      StandsIn v (site.under (.inline condition)) below → StandsIn v site ss

theorem StandsIn.mono {v : FieldVisit} {site : Site} {ss ss' : List Selection}
    (h : v.StandsIn site ss) (hss : ∀ s ∈ ss, s ∈ ss') : v.StandsIn site ss' := by
  cases h with
  | here hs => exact .here (hss _ hs)
  | field hs h => exact .field (hss _ hs) h
  | inline hs h => exact .inline (hss _ hs) h

/-- The builder comes to the type that the ancestors of the field lead to.  If the field is defined,
its entry names the type that the ancestors with the field itself lead to. -/
structure Resolves (x : Compilation) (v : FieldVisit) : Prop where
  parent : v.parent = x.config.schema.typeAt v.site.ancestors
  below : ∀ f, v.definition? = some f →
    x.config.schema.typeAt (v.site.ancestors ++ [.field v.field])
      = x.config.schema.type? f.type.base
  recorded : ∀ f, v.definition? = some f → ∀ follow masked t,
    x.tree follow v.parent masked (.field v.field v.selections) = .ok t →
      ∃ h fields, t = [(v.field.responseKey, .node h fields)] ∧ h.type = some f.type.base

end FieldVisit

/-! ## 2. Computations with a log -/

/-- A computation with the fields that it has got to, up to its end or its first error. -/
structure Logged (α : Type) where
  visits : List FieldVisit
  outcome : Except Error α

namespace Logged

variable {α β : Type}

instance : Monad Logged where
  pure a := ⟨[], .ok a⟩
  bind m f :=
    match m.outcome with
    | .error e => ⟨m.visits, .error e⟩
    | .ok a => ⟨m.visits ++ (f a).visits, (f a).outcome⟩

/-- A computation that gets to no field. -/
def lift (x : Except Error α) : Logged α := ⟨[], x⟩

def visit (v : FieldVisit) : Logged Unit := ⟨[v], .ok ()⟩

theorem outcome_bind (m : Logged α) (f : α → Logged β) :
    (m >>= f).outcome = m.outcome >>= fun a => (f a).outcome := by
  obtain ⟨visits, outcome⟩ := m
  cases outcome <;> rfl

theorem mem_bind {m : Logged α} {f : α → Logged β} {v : FieldVisit} :
    v ∈ (m >>= f).visits ↔ v ∈ m.visits ∨ ∃ a, m.outcome = .ok a ∧ v ∈ (f a).visits := by
  obtain ⟨visits, outcome⟩ := m
  cases outcome with
  | error e => exact (or_iff_left fun ⟨_, h, _⟩ => error_ne_ok h).symm
  | ok a =>
    refine List.mem_append.trans (or_congr_right ⟨fun h => ⟨a, rfl, h⟩, ?_⟩)
    rintro ⟨a', ha, h⟩
    exact Except.ok.inj ha ▸ h

theorem not_mem_pure {a : α} {v : FieldVisit} : v ∉ (pure a : Logged α).visits :=
  List.not_mem_nil

theorem not_mem_lift {x : Except Error α} {v : FieldVisit} : v ∉ (lift x).visits :=
  List.not_mem_nil

end Logged

/-! ## 3. A build with a log -/

namespace Compilation

mutual

/-- `tree` with a log. -/
def treeLogged (x : Compilation) (follow : String → Logged SelectionTree) (site : Site)
    (parent : Option NamedType) (masked : Bool) : Selection → Logged SelectionTree
  | .field head selections => do
    Logged.visit { site, field := head, selections, parent }
    if head.name = typenameField then
      return [(head.responseKey, .node (.plain "String" typenameField masked) none)]
    else do
      let f ← .lift (definition parent head.name)
      let key ← .lift (cacheKey head (some f))
      let below ← forestLogged x follow (site.under (.field head))
        (x.config.schema.fieldType? f) masked [] selections
      let h ← .lift (x.entryHead head selections f key masked)
      return [(head.responseKey, .node h (if selections.isEmpty then none else some below))]
  | .spread name _ => follow name
  | .inline condition _ selections =>
    forestLogged x follow (site.under (.inline condition)) (x.narrowed parent condition) masked []
      selections

/-- `forest` with a log. -/
def forestLogged (x : Compilation) (follow : String → Logged SelectionTree) (site : Site)
    (parent : Option NamedType) (masked : Bool) (merged : SelectionTree) :
    List Selection → Logged SelectionTree
  | [] => pure merged
  | s :: selections => do
    let entries ← treeLogged x follow site parent masked s
    forestLogged x follow site parent masked (Entry.mergeInto merged entries) selections

end

/-- `follow` with a log. -/
def followLogged (x : Compilation) (depth : Nat) (name : String) : Logged SelectionTree :=
  match Table.get? x.fragments name, depth with
  | none, _ => .lift (.error (.unknownFragment name))
  | some _, 0 => .lift (.error .endlessSpread)
  | some fragment, depth + 1 =>
    x.forestLogged (x.followLogged depth) (.ofFragment name fragment)
      (x.config.schema.type? fragment.condition) true [] fragment.selections

/-- `compile` with a log. -/
def compileLogged (x : Compilation) (site : Site) (type : NamedType) (selections : List Selection) :
    Logged SelectionTree :=
  x.forestLogged (x.followLogged x.fragments.length) site (some type) false [] selections

section Outcome

variable {x : Compilation} {follow : String → Logged SelectionTree}

mutual

theorem treeLogged_outcome : ∀ (s : Selection) (site : Site) (parent : Option NamedType)
    (masked : Bool), (x.treeLogged follow site parent masked s).outcome
      = x.tree (fun name => (follow name).outcome) parent masked s
  | .field head selections, site, parent, masked => by
    rw [treeLogged, tree, Logged.outcome_bind]
    by_cases ht : head.name = typenameField
    · simp only [if_pos ht]
      rfl
    · simp only [if_neg ht, Logged.outcome_bind, forestLogged_outcome selections]
      rfl
  | .spread _ _, _, _, _ => by rw [treeLogged, tree]
  | .inline condition _ selections, site, parent, masked => by
    rw [treeLogged, tree, forestLogged_outcome selections]

theorem forestLogged_outcome : ∀ (ss : List Selection) (site : Site) (parent : Option NamedType)
    (masked : Bool) (merged : SelectionTree),
    (x.forestLogged follow site parent masked merged ss).outcome
      = x.forest (fun name => (follow name).outcome) parent masked merged ss
  | [], _, _, _, _ => rfl
  | s :: ss, site, parent, masked, merged => by
    rw [forestLogged, forest, Logged.outcome_bind, treeLogged_outcome s]
    exact bind_congr fun entries => forestLogged_outcome ss site parent masked _

end

theorem followLogged_outcome : ∀ (depth : Nat) (name : String),
    (x.followLogged depth name).outcome = x.follow depth name
  | 0, name => by
    rw [followLogged.eq_def, follow.eq_def]
    cases Table.get? x.fragments name <;> rfl
  | depth + 1, name => by
    rw [followLogged.eq_def, follow.eq_def]
    cases Table.get? x.fragments name with
    | none => rfl
    | some f =>
      dsimp only
      rw [forestLogged_outcome, funext (followLogged_outcome depth)]

/-- **The log changes nothing.** -/
theorem compileLogged_outcome (site : Site) (type : NamedType) (ss : List Selection) :
    (x.compileLogged site type ss).outcome = x.compile type ss := by
  rw [compileLogged, compile, forestLogged_outcome, funext (followLogged_outcome _)]

end Outcome

/-! ## 4. What is in the log -/

/-- The field stands in one of the fragments that there are. -/
def InFragment (x : Compilation) (v : FieldVisit) : Prop :=
  ∃ name f, Table.get? x.fragments name = some f ∧ v.StandsIn (.ofFragment name f) f.selections

/-- A way to follow spreads that gets to fields of fragments, with the type at hand that their
ancestors lead to. -/
def KeepsStep (x : Compilation) (follow : String → Logged SelectionTree) : Prop :=
  ∀ name, ∀ v ∈ (follow name).visits,
    x.InFragment v ∧ x.config.schema.Leads v.site.ancestors v.parent

section Visits

variable {x : Compilation} {follow : String → Logged SelectionTree}

mutual

/-- The builder keeps in step with the ancestors: the type at hand is always the one that they lead
to, now and for everything further down. -/
theorem treeLogged_visits (hfollow : x.KeepsStep follow) : ∀ (s : Selection) (site : Site)
    (parent : Option NamedType) (masked : Bool), x.config.schema.Leads site.ancestors parent →
    ∀ v ∈ (x.treeLogged follow site parent masked s).visits,
      (v.StandsIn site [s] ∨ x.InFragment v) ∧ x.config.schema.Leads v.site.ancestors v.parent
  | .field head selections, site, parent, masked, hl, v, hv => by
    rw [treeLogged, Logged.mem_bind] at hv
    rcases hv with hv | ⟨_, -, hv⟩
    · obtain rfl := List.mem_singleton.mp hv
      exact ⟨.inl (.here List.mem_cons_self), hl⟩
    · by_cases ht : head.name = typenameField
      · rw [if_pos ht] at hv
        exact absurd hv Logged.not_mem_pure
      · simp only [if_neg ht, Logged.mem_bind, Logged.not_mem_lift, Logged.not_mem_pure, false_or,
          and_false, exists_false, or_false] at hv
        obtain ⟨f, hf, _, -, hv⟩ := hv
        have hl' : x.config.schema.Leads (site.under (.field head)).ancestors
            (x.config.schema.fieldType? f) := hl.field (definition_eq_ok hf)
        obtain ⟨hstands, hleads⟩ := forestLogged_visits hfollow selections _ _ masked [] hl' v hv
        exact ⟨hstands.imp_left (.field List.mem_cons_self), hleads⟩
  | .spread name _, site, parent, masked, _, v, hv => by
    rw [treeLogged] at hv
    exact (hfollow name v hv).imp_left .inr
  | .inline condition _ selections, site, parent, masked, hl, v, hv => by
    rw [treeLogged] at hv
    have hl' : x.config.schema.Leads (site.under (.inline condition)).ancestors
        (x.narrowed parent condition) := leads_narrowed hl condition
    obtain ⟨hstands, hleads⟩ := forestLogged_visits hfollow selections _ _ masked [] hl' v hv
    exact ⟨hstands.imp_left (.inline List.mem_cons_self), hleads⟩

theorem forestLogged_visits (hfollow : x.KeepsStep follow) : ∀ (ss : List Selection)
    (site : Site) (parent : Option NamedType) (masked : Bool) (merged : SelectionTree),
    x.config.schema.Leads site.ancestors parent →
    ∀ v ∈ (x.forestLogged follow site parent masked merged ss).visits,
      (v.StandsIn site ss ∨ x.InFragment v) ∧ x.config.schema.Leads v.site.ancestors v.parent
  | [], _, _, _, _, _, v, hv => by
    rw [forestLogged] at hv
    exact absurd hv Logged.not_mem_pure
  | s :: ss, site, parent, masked, merged, hl, v, hv => by
    rw [forestLogged, Logged.mem_bind] at hv
    rcases hv with hv | ⟨entries, -, hv⟩
    · obtain ⟨hstands, hleads⟩ := treeLogged_visits hfollow s site parent masked hl v hv
      refine ⟨hstands.imp_left (·.mono fun _ hs => ?_), hleads⟩
      exact List.mem_singleton.mp hs ▸ List.mem_cons_self
    · obtain ⟨hstands, hleads⟩ := forestLogged_visits hfollow ss site parent masked _ hl v hv
      exact ⟨hstands.imp_left (·.mono fun _ => List.mem_cons_of_mem s), hleads⟩

end

theorem followLogged_keepsStep : ∀ depth : Nat, x.KeepsStep (x.followLogged depth)
  | 0, name, v, hv => by
    rw [followLogged.eq_def] at hv
    cases hget : Table.get? x.fragments name <;>
      exact absurd (hget ▸ hv) Logged.not_mem_lift
  | depth + 1, name, v, hv => by
    rw [followLogged.eq_def] at hv
    cases hget : Table.get? x.fragments name with
    | none =>
      rw [hget] at hv
      exact absurd hv Logged.not_mem_lift
    | some f =>
      rw [hget] at hv
      have hl : x.config.schema.Leads (Site.ofFragment name f).ancestors
          (x.config.schema.type? f.condition) := x.config.schema.leads_fragment f.condition
      obtain ⟨hstands, hleads⟩ :=
        forestLogged_visits (followLogged_keepsStep depth) f.selections _ _ true [] hl v hv
      exact ⟨hstands.elim (fun h => ⟨name, f, hget, h⟩) id, hleads⟩

/-- What the builder keeps in step with, it agrees with. -/
theorem resolves_of_leads {v : FieldVisit}
    (hl : x.config.schema.Leads v.site.ancestors v.parent) : v.Resolves x where
  parent := hl.typeAt.symm
  below f hf := by
    rw [FieldVisit.definition?] at hf
    split at hf
    · exact absurd hf nofun
    · exact (hl.field hf).typeAt
  recorded f hf follow masked t ht := by
    rw [FieldVisit.definition?] at hf
    split at hf
    · exact absurd hf nofun
    · rename_i hname
      rw [tree, if_neg hname] at ht
      simp only [bind_eq_ok, pure_eq_ok] at ht
      obtain ⟨g, hg, key, -, below, -, h, hh, rfl⟩ := ht
      obtain rfl := Option.some.inj (hf.symm.trans (definition_eq_ok hg))
      exact ⟨h, _, rfl, (entryHead_type_cacheKey hh).1⟩

/-- Every field that a build gets to stands in the selections that are built or in a fragment, and
the two ways to know its type agree. -/
theorem compileLogged_visits {site : Site} {type : NamedType} {ss : List Selection}
    (hl : x.config.schema.typeAt site.ancestors = some type) :
    ∀ v ∈ (x.compileLogged site type ss).visits,
      (v.StandsIn site ss ∨ x.InFragment v) ∧ v.Resolves x := by
  intro v hv
  have hleads := Schema.leads_typeAt hl
  exact (forestLogged_visits (followLogged_keepsStep _) ss site _ false [] hleads v hv).imp_right
    resolves_of_leads

end Visits

end Compilation

/-! ## 5. Documents -/

namespace ArtifactContext

variable {x : ArtifactContext} {d : Document}

/-- The build of the selection of a document, with a log. -/
def selectionLogged (x : ArtifactContext) (d : Document) : Logged SelectionTree := do
  let (main, others) ← .lift (x.compiledDefinitions d)
  match main.rootType? x.config.schema with
  | none => .lift (.error (.noRootType d.name))
  | some type =>
    (x.compilation d main others).compileLogged { fragment := none, ancestors := [main.ancestor] }
      type main.selections

theorem selectionLogged_outcome (x : ArtifactContext) (d : Document) :
    (x.selectionLogged d).outcome = (x.compile d).map (·.selection) := by
  rw [selectionLogged, Logged.outcome_bind, compile, Logged.lift, compiledDefinitions]
  cases d.executable with
  | error e => rfl
  | ok e =>
    simp only [bind, Except.bind]
    cases referenced x.fragments e with
    | error e => rfl
    | ok fs =>
      simp only [pure, Except.pure]
      cases (e.withTypenames x.config.schema).rootType? x.config.schema with
      | none => rfl
      | some type =>
        simp only [Compilation.compileLogged_outcome, compilation]
        split <;> assumption

/-- **The two ways agree.**  The build with a log comes to what the document is compiled to, and
every field that it gets to stands in the definition of the document or in a fragment, and is
looked up in the type that its ancestors there lead to. -/
theorem visits_resolve (x : ArtifactContext) (d : Document) :
    (x.selectionLogged d).outcome = (x.compile d).map (·.selection) ∧
      ∀ v ∈ (x.selectionLogged d).visits,
        ∃ main others, x.compiledDefinitions d = .ok (main, others) ∧
          (v.StandsIn { fragment := none, ancestors := [main.ancestor] } main.selections ∨
            (x.compilation d main others).InFragment v) ∧
          v.Resolves (x.compilation d main others) := by
  refine ⟨x.selectionLogged_outcome d, fun v hv => ?_⟩
  rw [selectionLogged, Logged.mem_bind] at hv
  rcases hv with hv | ⟨⟨main, others⟩, hdefs, hv⟩
  · exact absurd hv Logged.not_mem_lift
  · cases hroot : main.rootType? x.config.schema with
    | none =>
      simp only [hroot] at hv
      exact absurd hv Logged.not_mem_lift
    | some type =>
      simp only [hroot] at hv
      refine ⟨main, others, hdefs, Compilation.compileLogged_visits ?_ v hv⟩
      exact hroot

end ArtifactContext

/-- The fields that the builder gets to in the query for the hero. -/
def Sample.heroFields : List FieldVisit :=
  ((ArtifactContext.ofDocuments (config characters) [] friends).selectionLogged hero).visits

open Sample in
/-- The names of friends of friends are reached through a fragment, and looked up among what
characters have. -/
theorem hero_resolved :
    ∃ v ∈ heroFields, v.site.fragment = some "Names" ∧ v.site.ancestors.length = 3 ∧
      v.field.name = "name" ∧ v.parent.map (·.name) = some "Character" ∧
      v.parent = characters.typeAt v.site.ancestors ∧
      characters.typeAt (v.site.ancestors ++ [.field v.field]) = characters.type? "String" := by
  obtain ⟨v, hv, hsite, hlength, hname, hparent, hfield⟩ : ∃ v ∈ heroFields,
      v.site.fragment = some "Names" ∧ v.site.ancestors.length = 3 ∧ v.field.name = "name" ∧
        v.parent.map (·.name) = some "Character" ∧
        v.definition?.map (·.type.base) = some "String" := by
    decide +kernel
  obtain ⟨main, others, -, -, hresolves⟩ := (ArtifactContext.visits_resolve _ _).2 v hv
  obtain ⟨f, hf, hbase⟩ := Option.map_eq_some_iff.mp hfield
  exact ⟨v, hv, hsite, hlength, hname, hparent, hresolves.parent, hbase ▸ hresolves.below f hf⟩

end QueryCompiler
