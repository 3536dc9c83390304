import QueryCompiler.Proofs.Artifact.Sent
import QueryCompiler.Proofs.Selection.Trimming
/-
# Places of an artifact

An artifact shows the places of a document: those that its definition selects, and those in the
fragments that are spread there.  Before it is compiled the names of types are put in, and what
stands below such a name is never looked at (`ArtifactContext.compile_shows_trimmed`).  Both leave
the fields of the document with what they have, as long as this does not depend on what goes away;
so what holds of all fields of the document and of the fragments there are (`Throughout`) holds at
every place (`ArtifactContext.places_have`).
-/
namespace QueryCompiler.ArtifactContext

variable {x : ArtifactContext} {d : Document} {a : Artifact} {main : Executable}
  {others : List Fragment}

/-- **An artifact shows what it was compiled from**, up to what stands below the names of types. -/
theorem compile_shows_trimmed (h : x.compile d = .ok a) :
    ∃ main others rows, x.compiledDefinitions d = .ok (main, others) ∧
      (x.compilation d main others).trimmed.Rows
        (Table.get? (x.compilation d main others).trimmed.fragments)
        { fragment := none, ancestors := [main.ancestor] } (trimAll main.selections) rows ∧
      Shows a.selection rows := by
  obtain ⟨main, others, type, hdefs, htype, -, hsel⟩ := compile_eq_ok h
  obtain ⟨rows, hrows, hshows⟩ :=
    (x.compilation d main others).compile_shows_trimmed (leads_rootType htype) hsel
  exact ⟨main, others, rows, hdefs, hrows, hshows⟩

/-- A property of the fields of a document, and of the fields in the fragments of the table. -/
structure Throughout (x : ArtifactContext) (P : Option String → FieldProperty) (d : Document) :
    Prop where
  own : ∀ e, d.executable = .ok e → EveryIn (P none) [e.ancestor] e.selections
  fragments : ∀ name f, Table.get? x.fragments name = some f →
    EveryIn (P (some name)) [.fragment f.condition] f.selections

/-- **What holds throughout holds at every place of an artifact.** -/
theorem places_have {P : Option String → FieldProperty}
    (hplain : ∀ site ancestors name ss, P site ancestors (.plain name) ss)
    (htypenames : ∀ site, KeptByTypenames x.config.schema (P site))
    (htrimming : ∀ site, KeptByTrimming (P site))
    (hnamed : NamedByKey x.fragments) (hx : x.Throughout P d)
    (hdefs : x.compiledDefinitions d = .ok (main, others)) {os : List Occurrence}
    (h : Expands (Table.get? (x.compilation d main others).trimmed.fragments)
      { fragment := none, ancestors := [main.ancestor] } (trimAll main.selections) os) :
    ∀ o ∈ os, P o.site.fragment o.site.ancestors o.field o.selections := by
  have hinjected {site : Option String} {ancestors : List Ancestor} {ss : List Selection}
      (hss : EveryIn (P site) ancestors ss) :
      EveryIn (P site) ancestors (injectTypenames x.config.schema ancestors ss) :=
    everyIn_injectTypenames (hplain site) (htypenames site) hss
  obtain ⟨e, -, he, -, hmain, -⟩ := compiledDefinitions_eq_ok hdefs
  refine h.fields ?_ fun name f hreached hf => ?_
  · rw [hmain, e.ancestor_withTypenames, e.selections_withTypenames]
    exact everyIn_trimAll (htrimming none) (hinjected (hx.own e he))
  · have hreach := hf
    rw [Compilation.get?_trimmed, Option.map_eq_some_iff] at hf
    obtain ⟨g, hg, rfl⟩ := hf
    refine everyIn_trimAll (htrimming (some name)) ?_
    rcases compiledFragments_source hnamed hdefs hg with ⟨-, rfl⟩ | ⟨g', hg', rfl | rfl⟩
    -- the definition itself is in the table, but nothing leads back to it
    · exact absurd hreached (h.not_reachedFrom hreach rfl)
    · exact hx.fragments name g hg'
    · exact hinjected (hx.fragments name g' hg')

end QueryCompiler.ArtifactContext
