import QueryCompiler.Proofs.Artifact.Sent
import QueryCompiler.Proofs.Lists.Identity
import QueryCompiler.Proofs.Lists.Names
import QueryCompiler.Proofs.Lists.ReadBack
/-
# What is sent has no directive that steers the compilation

A document is sent without the directives that only the compilation reads: those of the
configuration, and those that delete records of a type.  They may stand next to each other, between
directives of the user, on every node that holds directives, in the definition as in the fragments
that come with it.

* `Scrubs`, `Definition.Scrubs`: a document without some directives, node by node; all that is not a
  directive is the same;
* `ArtifactContext.compile_scrubbed`: this is what is sent, and nothing else.
-/
namespace QueryCompiler

/-! ## 1. Some directives without others -/

section Scrubs

variable (dropped : Directive → Prop)

/-- Some directives without those that are dropped.  The others stay as they are, in their order. -/
inductive Leaves : List Directive → List Directive → Prop
  | nil : Leaves [] []
  | drop {d : Directive} {ds ds' : List Directive} :
      dropped d → Leaves ds ds' → Leaves (d :: ds) ds'
  | keep {d : Directive} {ds ds' : List Directive} :
      ¬ dropped d → Leaves ds ds' → Leaves (d :: ds) (d :: ds')

/-- Some selections with the directives of every node scrubbed. -/
inductive Scrubs : List Selection → List Selection → Prop
  | nil : Scrubs [] []
  | field {head : FieldHead} {ds' : List Directive} {ss ss' rest rest' : List Selection} :
      Leaves dropped head.directives ds' → Scrubs ss ss' → Scrubs rest rest' →
      Scrubs (.field head ss :: rest) (.field { head with directives := ds' } ss' :: rest')
  | spread {name : String} {ds ds' : List Directive} {rest rest' : List Selection} :
      Leaves dropped ds ds' → Scrubs rest rest' →
      Scrubs (.spread name ds :: rest) (.spread name ds' :: rest')
  | inline {condition : Option String} {ds ds' : List Directive}
      {ss ss' rest rest' : List Selection} :
      Leaves dropped ds ds' → Scrubs ss ss' → Scrubs rest rest' →
      Scrubs (.inline condition ds ss :: rest) (.inline condition ds' ss' :: rest')

/-- A variable with its directives scrubbed. -/
inductive VariableDefinition.Scrubs : VariableDefinition → VariableDefinition → Prop
  | intro {v : VariableDefinition} {ds' : List Directive} :
      Leaves dropped v.directives ds' → Scrubs v { v with directives := ds' }

/-- An operation or a fragment with the directives of every node scrubbed: its own, those of its
variables, and those of its selections. -/
inductive Definition.Scrubs : Definition → Definition → Prop
  | operation {o : Operation} {declarations' : List VariableDefinition} {ds' : List Directive}
      {ss' : List Selection} :
      List.Forall₂ (VariableDefinition.Scrubs dropped) o.declarations declarations' →
      Leaves dropped o.directives ds' → QueryCompiler.Scrubs dropped o.selections ss' →
      Scrubs (.operation o)
        (.operation { o with declarations := declarations', directives := ds', selections := ss' })
  | fragment {f : Fragment} {ds' : List Directive} {ss' : List Selection} :
      Leaves dropped f.directives ds' → QueryCompiler.Scrubs dropped f.selections ss' →
      Scrubs (.fragment f) (.fragment { f with directives := ds', selections := ss' })

end Scrubs

/-! ## 2. One way to scrub -/

/-- What a relation makes of each of some items, if it is a function of them. -/
theorem forall₂_iff_eq_map {α β : Type} {R : α → β → Prop} {f : α → β} {as : List α}
    (h : ∀ a ∈ as, ∀ b, R a b ↔ b = f a) {bs : List β} :
    List.Forall₂ R as bs ↔ bs = as.map f := by
  induction as generalizing bs with
  | nil => simp
  | cons a as ih =>
    have htail : ∀ bs, List.Forall₂ R as bs ↔ bs = as.map f :=
      fun _ => ih fun a ha => h a (List.mem_cons_of_mem _ ha)
    cases bs with
    | nil => simp
    | cons b bs => simp [h a List.mem_cons_self, htail]

section Filter

variable {dropped : Directive → Prop} {keep : Directive → Bool}

/-- What is left of some directives are those that are kept. -/
theorem leaves_iff (hkeep : ∀ d, keep d = true ↔ ¬ dropped d) {ds ds' : List Directive} :
    Leaves dropped ds ds' ↔ ds' = ds.filter keep := by
  constructor
  · intro h
    induction h with
    | nil => rfl
    | drop hd _ ih =>
      rw [List.filter_cons_of_neg fun hk => (hkeep _).mp hk hd]
      exact ih
    | keep hd _ ih => rw [List.filter_cons_of_pos ((hkeep _).mpr hd), ih]
  · rintro rfl
    induction ds with
    | nil => exact .nil
    | cons d ds ih =>
      by_cases hd : keep d = true
      · rw [List.filter_cons_of_pos hd]
        exact .keep ((hkeep d).mp hd) ih
      · rw [List.filter_cons_of_neg hd]
        exact .drop (Classical.not_not.mp fun hn => hd ((hkeep d).mpr hn)) ih

theorem scrubs_mapAllDirectives (hkeep : ∀ d, keep d = true ↔ ¬ dropped d) :
    ∀ ss : List Selection, Scrubs dropped ss (Selection.mapAllDirectives (·.filter keep) ss)
  | [] => .nil
  | .field head ss :: rest => by
    rw [Selection.mapAllDirectives, Selection.mapDirectives]
    exact .field ((leaves_iff hkeep).mpr rfl) (scrubs_mapAllDirectives hkeep ss)
      (scrubs_mapAllDirectives hkeep rest)
  | .spread name ds :: rest => by
    rw [Selection.mapAllDirectives, Selection.mapDirectives]
    exact .spread ((leaves_iff hkeep).mpr rfl) (scrubs_mapAllDirectives hkeep rest)
  | .inline condition ds ss :: rest => by
    rw [Selection.mapAllDirectives, Selection.mapDirectives]
    exact .inline ((leaves_iff hkeep).mpr rfl) (scrubs_mapAllDirectives hkeep ss)
      (scrubs_mapAllDirectives hkeep rest)

/-- **Selections are scrubbed in one way**: node by node by the filter. -/
theorem scrubs_iff (hkeep : ∀ d, keep d = true ↔ ¬ dropped d) {ss ss' : List Selection} :
    Scrubs dropped ss ss' ↔ ss' = Selection.mapAllDirectives (·.filter keep) ss := by
  refine ⟨fun h => ?_, fun h => h ▸ scrubs_mapAllDirectives hkeep ss⟩
  induction h with
  | nil => rfl
  | field hds _ _ ihbelow ih =>
    rw [Selection.mapAllDirectives, Selection.mapDirectives, ← (leaves_iff hkeep).mp hds, ihbelow,
      ih]
  | spread hds _ ih =>
    rw [Selection.mapAllDirectives, Selection.mapDirectives, ← (leaves_iff hkeep).mp hds, ih]
  | inline hds _ _ ihbelow ih =>
    rw [Selection.mapAllDirectives, Selection.mapDirectives, ← (leaves_iff hkeep).mp hds, ihbelow,
      ih]

theorem VariableDefinition.scrubs_iff (hkeep : ∀ d, keep d = true ↔ ¬ dropped d)
    (v v' : VariableDefinition) :
    VariableDefinition.Scrubs dropped v v' ↔ v' = v.mapDirectives (·.filter keep) := by
  constructor
  · rintro ⟨hds⟩
    rw [mapDirectives, ← (leaves_iff hkeep).mp hds]
  · rintro rfl
    exact .intro ((leaves_iff hkeep).mpr rfl)

/-- **An executable definition is scrubbed in one way.** -/
theorem Executable.scrubs_iff (hkeep : ∀ d, keep d = true ↔ ¬ dropped d) (e : Executable)
    (d : Definition) :
    e.definition.Scrubs dropped d ↔ d = e.definition.mapDirectives (·.filter keep) := by
  constructor
  · intro h
    cases e with
    | operation o =>
      cases h with
      | operation hdeclarations hds hss =>
        have hvariables := (forall₂_iff_eq_map fun v _ v' =>
          VariableDefinition.scrubs_iff hkeep v v').mp hdeclarations
        rw [hvariables, (leaves_iff hkeep).mp hds, (QueryCompiler.scrubs_iff hkeep).mp hss]
        rfl
    | fragment f =>
      cases h with
      | fragment hds hss =>
        rw [(leaves_iff hkeep).mp hds, (QueryCompiler.scrubs_iff hkeep).mp hss]
        rfl
  · rintro rfl
    cases e with
    | operation o =>
      refine .operation ?_ ((leaves_iff hkeep).mpr rfl) (scrubs_mapAllDirectives hkeep _)
      exact (forall₂_iff_eq_map fun v _ v' => VariableDefinition.scrubs_iff hkeep v v').mpr rfl
    | fragment f => exact .fragment ((leaves_iff hkeep).mpr rfl) (scrubs_mapAllDirectives hkeep _)

end Filter

/-! ## 3. What is sent -/

/-- All directives of some definitions, in the order of the text. -/
def directivesOf (definitions : List Definition) : List Directive :=
  (definitions.flatMap (·.directiveLists)).flatten

/-- Filtering the directives of every node filters them all. -/
theorem directivesOf_filter (keep : Directive → Bool) (definitions : List Definition) :
    directivesOf (definitions.map (·.mapDirectives (·.filter keep)))
      = (directivesOf definitions).filter keep := by
  have hlists : (definitions.map (·.mapDirectives (·.filter keep))).flatMap (·.directiveLists)
      = (definitions.flatMap (·.directiveLists)).map (·.filter keep) := by
    rw [List.flatMap_map, List.map_flatMap]
    exact congrArg definitions.flatMap (funext fun d => directiveLists_definition _ d)
  rw [directivesOf, directivesOf, hlists, List.filter_flatten]

namespace ArtifactContext

variable {x : ArtifactContext} {d : Document} {a : Artifact}

/-- A directive only steers the compilation: it is one of those of the configuration, or deletes the
records of an object type that some list has for members. -/
def Steers (x : ArtifactContext) (d : Directive) : Prop :=
  d.name ∈ x.config.internalDirectives ∨
    ∃ type ∈ x.registry.objectNames, d.name = x.config.deleteDirective type

theorem isDropped_iff (x : ArtifactContext) (d : Directive) :
    x.isDropped d = true ↔ x.Steers d := by
  rw [isDropped, Bool.or_eq_true, Steers, Config.isInternal, decide_eq_true_iff,
    Option.isSome_iff_exists]
  simp only [deletedType?_eq_some_iff]

theorem keeps_iff (x : ArtifactContext) (d : Directive) :
    (!x.isDropped d) = true ↔ ¬ x.Steers d := by
  rw [Bool.not_eq_true', ← Bool.not_eq_true, isDropped_iff]

/-- **What is sent** is what is compiled with the directives scrubbed that only steer the
compilation: at every node these go, the others stay in their order, and nothing else is changed.
So none of them is in the text that an artifact has, and all other directives are. -/
theorem compile_scrubbed (h : x.compile d = .ok a) :
    ∃ main others sent, x.compiledDefinitions d = .ok (main, others) ∧
      a.raw = printDocument sent ∧
      (∀ definitions, List.Forall₂ (Definition.Scrubs x.Steers)
        (main.definition :: others.map .fragment) definitions ↔ definitions = sent) ∧
      (∀ directive ∈ directivesOf sent, ¬ x.Steers directive) ∧
      Leaves x.Steers (directivesOf (main.definition :: others.map .fragment))
        (directivesOf sent) := by
  obtain ⟨main, others, type, hdefs, -, hraw, -⟩ := compile_eq_ok h
  have hdirectives := directivesOf_filter (fun d => !x.isDropped d)
    (main.definition :: others.map .fragment)
  refine ⟨main, others, _, hdefs, hraw, fun definitions => ?_, fun directive hdirective => ?_, ?_⟩
  · refine forall₂_iff_eq_map fun definition hdefinition other => ?_
    rcases List.mem_cons.mp hdefinition with rfl | hfragment
    · exact Executable.scrubs_iff x.keeps_iff main other
    · obtain ⟨f, -, rfl⟩ := List.mem_map.mp hfragment
      exact Executable.scrubs_iff x.keeps_iff (.fragment f) other
  · rw [sent, hdirectives] at hdirective
    exact (x.keeps_iff directive).mp (List.mem_filter.mp hdirective).2
  · exact (leaves_iff x.keeps_iff).mpr hdirectives

end ArtifactContext

namespace Sample

def directive (name : String) : Directive := plainDirective name []

/-- The field of characters with these directives. -/
def markedField (name : String) (directives : List Directive) (selections : List Selection) :
    Selection :=
  .field { label := none, name, arguments := [], directives } selections

/-- The hero with directives on every kind of node: some that steer the compilation next to each
other, one that deletes users, and some of the user between them. -/
def markedHero : List Document :=
  [.ofDefinitions .query "Hero" "Hero" [.operation
      { description := none, kind := .query, name := some "Hero"
        declarations := [⟨none, "name", .named "String", none,
          [directive "arguments", directive "shown", directive "with"]⟩]
        directives := [directive "paginate", directive "list", directive "cached"]
        selections := [markedField "hero"
          [directive "include", directive "list", directive "paginate", directive "User_delete",
            directive "skip"]
          [.spread "Named" [directive "with", directive "when"],
            .inline none [directive "when_not", directive "defer"] [plainField "friend" [
              plainField "name" []]]]] }],
    .ofDefinitions .fragment "Named" "Named" [.fragment
      { description := none, name := "Named", condition := "Character"
        directives := [directive "arguments", directive "public"]
        selections := [markedField "name" [directive "prepend", directive "parentID"] []] }]]

def markedContext : ArtifactContext :=
  .ofDocuments (config characters) [usersList "Users" [plainField "id" []]] markedHero

end Sample

open Sample in
theorem markedHero_scrubbed :
    ∃ a main others sent,
      markedContext.compile (markedHero.headD hero) = .ok a ∧
      markedContext.compiledDefinitions (markedHero.headD hero) = .ok (main, others) ∧
      a.raw = printDocument sent ∧
      (∀ definitions, List.Forall₂ (Definition.Scrubs markedContext.Steers)
        (main.definition :: others.map .fragment) definitions ↔ definitions = sent) ∧
      (∀ directive ∈ directivesOf sent, ¬ markedContext.Steers directive) ∧
      Leaves markedContext.Steers (directivesOf (main.definition :: others.map .fragment))
        (directivesOf sent) := by
  have hok : (markedContext.compile (markedHero.headD hero)).isOk = true := by decide +kernel
  cases h : markedContext.compile (markedHero.headD hero) with
  | error e => rw [h] at hok; exact absurd hok nofun
  | ok a =>
    obtain ⟨main, others, sent, hscrubbed⟩ := ArtifactContext.compile_scrubbed h
    exact ⟨a, main, others, sent, rfl, hscrubbed⟩

open Sample in
/-- Only the directives of the user are sent. -/
example : (markedContext.sentDefinitions (markedHero.headD hero)).toOption.map
      (fun sent => (directivesOf sent).map (·.name))
    = some ["shown", "cached", "include", "skip", "defer", "public"] := by
  decide +kernel

end QueryCompiler
