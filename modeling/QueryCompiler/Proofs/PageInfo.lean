import QueryCompiler.Proofs.Connection
import QueryCompiler.Proofs.Lists.PageInfo
/-
# Which connections have the page information

A connection needs the page information: the cursors and types of its members, and the state of the
page.  Two passes put it into documents, each under its own condition, and a third condition makes
an entry a connection.  The three agree except at two kinds of places (`Occurrence.LeftOut`): a
place that says on its own that it is a connection, where the list pass has not found one; and a
place that only a pagination directive makes a list and that pages by position.

* `runPipeline_pageInfo`: an entry that is a connection has the page information, or all places
  that say so are left out.
-/
namespace QueryCompiler

/-- The page information is not put under the place: its list is not one that the list pass marks,
or it has no list directive and pages by position. -/
def Occurrence.LeftOut (c : Config) (r : Registry) (o : Occurrence) : Prop :=
  ∃ name d, namedList? c o.field.directives = some (name, d) ∧
    (o.isMarked c r name = false ∨
      hasDirective o.field.directives c.listDirective = false ∧
        o.field.PagesByPosition c o.site.ancestors)

/-! ## 1. Places -/

/-- What is known of a field at a site: outside of generated fragments it is informed. -/
def SiteInformed (c : Config) (r : Registry) (fragment : Option String) : FieldProperty :=
  fun ancestors head ss =>
    Site.isGenerated c r { fragment, ancestors } = false → Informed c r ancestors head ss

theorem Informed.siteInformed {c : Config} {r : Registry} {fragment : Option String}
    {ancestors : List Ancestor} {head : FieldHead} {ss : List Selection}
    (h : Informed c r ancestors head ss) : SiteInformed c r fragment ancestors head ss := fun _ => h

theorem keptByTypenames_siteInformed {c : Config} {r : Registry} (s : Schema)
    (fragment : Option String) : KeptByTypenames s (SiteInformed c r fragment) :=
  fun ancestors head ss h hsite => keptByTypenames_informed s ancestors head ss (h hsite)

theorem keptByTrimming_siteInformed {c : Config} {r : Registry} (fragment : Option String) :
    KeptByTrimming (SiteInformed c r fragment) :=
  fun ancestors head ss h hsite => keptByTrimming_informed ancestors head ss (h hsite)

/-- A place that says that it is a connection selects the page information or is left out. -/
theorem Occurrence.selectsPageInfo_or_leftOut {c : Config} {r : Registry} {o : Occurrence}
    (h : SiteInformed c r o.site.fragment o.site.ancestors o.field o.selections)
    (hsaid : o.SaysConnection c r) : SelectsPageInfo o.selections ∨ o.LeftOut c r := by
  obtain ⟨hfield, name, d, hlist, -⟩ := hsaid
  cases hmarked : o.isMarked c r name with
  | false => exact .inr ⟨name, d, hlist, .inl hmarked⟩
  | true =>
    rw [isMarked, Bool.and_eq_true, Bool.not_eq_true'] at hmarked
    refine (h hmarked.1 hfield name d hlist hmarked.2).imp_right fun hposition => ?_
    exact ⟨name, d, hlist, .inr hposition⟩

/-- Without marks of its own, a connection is only left out because it pages by position. -/
theorem Occurrence.LeftOut.pagesByPosition {c : Config} {r : Registry} {o : Occurrence}
    (h : o.LeftOut c r) (hown : o.field.MarkedBy c (fun _ => False) (o.isMarked c r))
    (hsaid : o.SaysConnection c r) :
    hasDirective o.field.directives c.listDirective = false ∧
      o.field.PagesByPosition c o.site.ancestors := by
  obtain ⟨name, d, hlist, hreason⟩ := h
  obtain ⟨-, name', d', hlist', hmarked⟩ := (saysConnection_iff_isMarked hown).mp hsaid
  obtain ⟨rfl, -⟩ := Prod.mk.inj (Option.some.inj (hlist.symm.trans hlist'))
  exact hreason.resolve_left fun hnot => Bool.false_ne_true (hnot.symm.trans hmarked)

/-! ## 2. Runs -/

variable {c : Config} {documents : List Document} {artifacts : List Artifact}

/-- A run that succeeds leaves all fields informed that its artifacts show. -/
theorem runPipeline_informed (h : (runPipeline c documents).result = .ok artifacts) {d : Document}
    (hd : d ∈ (runPipeline c documents).documents) (hgenerate : d.generate = true) :
    (runContext c documents).Throughout (SiteInformed c (runRegistry c documents)) d := by
  obtain ⟨paged, refetched, tagged, hpaged, hsettled, hown, hfragments⟩ := runPipeline_settled h
  have hinformed : ∀ d ∈ tagged, ∀ e ∈ d.executables,
      EveryIn (Informed c (runRegistry c documents)) [e.ancestor] e.selections := by
    intro d' hd' e he
    obtain ⟨d₀, hd₀, hs⟩ := exists_of_forall₂ hsettled hd'
    exact hs.informed (paginate_equips hpaged d₀ hd₀) he
  constructor
  · intro e he
    exact (hinformed d (hown d hd hgenerate) e (Executable.mem_executables he)).mono
      fun _ _ _ hi => hi.siteInformed
  · intro name f hf
    have hsource := hfragments (fun _ => True) (fun d _ => d.marksIn_true) name f hf
    split at hsource
    · rename_i hop
      refine everyIn_of_forall (fun ancestors head ss hsite => ?_) f.selections _
      rw [Site.isGenerated, Option.any_some, hop] at hsite
      exact absurd hsite.symm Bool.false_ne_true
    · obtain ⟨d', hd', he⟩ := hsource
      exact (hinformed d' hd' (.fragment f) he).mono fun _ _ _ hi => hi.siteInformed

/-- **When a connection has the page information.**  An entry is a connection because some places
say so, and it has the page information unless all of these are left out.  Where the documents mark
no connections of their own, those that are left out have no list directive and page by position. -/
theorem runPipeline_pageInfo (h : (runPipeline c documents).result = .ok artifacts) :
    ∀ a ∈ artifacts, ∃ d ∈ (runPipeline c documents).documents, ∃ main others os,
      (runContext c documents).compile d = .ok a ∧
      (runContext c documents).compiledDefinitions d = .ok (main, others) ∧
      Expands (Table.get? ((runContext c documents).compilation d main others).trimmed.fragments)
        { fragment := none, ancestors := [main.ancestor] } (trimAll main.selections) os ∧
      ∀ p e, Entry.at? a.selection p = some e → e.head.connection = true →
        (∃ o ∈ os, o.path = p ∧ o.SaysConnection c (runRegistry c documents)) ∧
        (e.HasPageInfo ∨ ∀ o ∈ os, o.path = p →
          o.SaysConnection c (runRegistry c documents) → o.LeftOut c (runRegistry c documents)) ∧
        ((∀ d ∈ documents, d.MarksIn c fun _ => False) → e.HasPageInfo ∨ ∀ o ∈ os, o.path = p →
          o.SaysConnection c (runRegistry c documents) →
            hasDirective o.field.directives c.listDirective = false ∧
              o.field.PagesByPosition c o.site.ancestors) := by
  intro a ha
  obtain ⟨paged, refetched, new, -, -, -, -, hall⟩ := runPipeline_eq_ok h
  obtain ⟨d, hd, hgenerate, hcompile⟩ := hall a ha
  have hnamed : NamedByKey (runContext c documents).fragments := namedByKey_fragmentTable _
  obtain ⟨main, others, rows, hdefs, hexpands, hshows, hconnection⟩ :=
    ArtifactContext.connection_shows hnamed
      (runPipeline_judged h (fun d _ => d.marksIn_true) hd hgenerate) hcompile
  have hinformed : ∀ o ∈ places rows, SiteInformed c (runRegistry c documents) o.site.fragment
      o.site.ancestors o.field o.selections :=
    ArtifactContext.places_have (fun _ a name ss => (informed_plain a name ss).siteInformed)
      (keptByTypenames_siteInformed _) keptByTrimming_siteInformed hnamed
      (runPipeline_informed h hd hgenerate) hdefs hexpands
  refine ⟨d, hd, main, others, places rows, hcompile, hdefs, hexpands, fun p e he hc => ?_⟩
  have hleftOut : e.HasPageInfo ∨ ∀ o ∈ places rows, o.path = p →
      o.SaysConnection c (runRegistry c documents) → o.LeftOut c (runRegistry c documents) := by
    refine or_iff_not_imp_left.mpr fun hnone o ho hpath hsaid => ?_
    refine (Occurrence.selectsPageInfo_or_leftOut (hinformed o ho) hsaid).resolve_left
      fun hselects => hnone ?_
    subst hpath
    exact hshows.hasPageInfo hexpands ho hselects he
  refine ⟨?_, hleftOut, fun hP => hleftOut.imp_right fun hall o ho hpath hsaid => ?_⟩
  · obtain ⟨o, ho, hpath, hsaid⟩ := (hconnection p e he).mp hc
    exact ⟨o, ho, hpath, (o.saysConnection_newSchema _).mp hsaid⟩
  · exact (hall o ho hpath hsaid).pagesByPosition (ArtifactContext.places_verdict hnamed
      (runPipeline_judged h hP hd hgenerate) hdefs hexpands o ho) hsaid

/-! ## 3. A connection that pages by position -/

namespace Sample

/-- Users, who can be asked for in every way. -/
def anyPage : Schema :=
  { types := [.scalar "String", .scalar "Boolean", .scalar "Int", .scalar "ID",
      .object "PageInfo" [] [⟨"hasPreviousPage", some [], .named "Boolean"⟩,
        ⟨"hasNextPage", some [], .named "Boolean"⟩, ⟨"startCursor", some [], .named "String"⟩,
        ⟨"endCursor", some [], .named "String"⟩],
      .object "UserEdge" [] [⟨"cursor", some [], .named "String"⟩,
        ⟨"node", some [], .named "User"⟩],
      .object "UserConnection" [] [⟨"edges", some [], .list (.named "UserEdge")⟩,
        ⟨"pageInfo", some [], .named "PageInfo"⟩],
      .object "User" [] [⟨"id", some [], .named "ID"⟩],
      .object "Query" [] [⟨"users",
        some [("first", .named "Int"), ("after", .named "String"), ("last", .named "Int"),
          ("before", .named "String"), ("limit", .named "Int"), ("offset", .named "Int")],
        .named "UserConnection"⟩]]
    query := some "Query", mutation := none, subscription := none }

/-- Asked for the first and the last users at once, the field pages by position. -/
def bothEnds : List Document :=
  [operation .query "Users" [.field
    { label := none, name := "users"
      arguments := [{ name := "first", value := .int "1" }, { name := "last", value := .int "1" }]
      directives := [plainDirective "paginate"
        [{ name := "name", value := .string "Users" false }]] }
    [plainField "edges" [plainField "node" [plainField "id" []]]]]]

end Sample

open Sample in
theorem bothEnds_pageInfo :
    ∃ artifacts, (runPipeline (config anyPage) bothEnds).result = .ok artifacts ∧
      ∀ a ∈ artifacts, ∃ d ∈ (runPipeline (config anyPage) bothEnds).documents,
        ∃ main others os,
        (runContext (config anyPage) bothEnds).compile d = .ok a ∧
        (runContext (config anyPage) bothEnds).compiledDefinitions d = .ok (main, others) ∧
        Expands (Table.get?
            ((runContext (config anyPage) bothEnds).compilation d main others).trimmed.fragments)
          { fragment := none, ancestors := [main.ancestor] } (trimAll main.selections) os ∧
        ∀ p e, Entry.at? a.selection p = some e → e.head.connection = true →
          (∃ o ∈ os, o.path = p ∧
            o.SaysConnection (config anyPage) (runRegistry (config anyPage) bothEnds)) ∧
          (e.HasPageInfo ∨ ∀ o ∈ os, o.path = p →
            o.SaysConnection (config anyPage) (runRegistry (config anyPage) bothEnds) →
              o.LeftOut (config anyPage) (runRegistry (config anyPage) bothEnds)) ∧
          ((∀ d ∈ bothEnds, d.MarksIn (config anyPage) fun _ => False) →
            e.HasPageInfo ∨ ∀ o ∈ os, o.path = p →
              o.SaysConnection (config anyPage) (runRegistry (config anyPage) bothEnds) →
                hasDirective o.field.directives (config anyPage).listDirective = false ∧
                  o.field.PagesByPosition (config anyPage) o.site.ancestors) := by
  have hok : (runPipeline (config anyPage) bothEnds).result.isOk = true := by decide +kernel
  cases h : (runPipeline (config anyPage) bothEnds).result with
  | error e => rw [h] at hok; exact absurd hok nofun
  | ok artifacts => exact ⟨artifacts, rfl, runPipeline_pageInfo h⟩

open Sample in
/-- The users are a connection, and nothing tells whether there are more of them. -/
theorem bothEnds_without_pageInfo :
    ∃ artifacts, (runPipeline (config anyPage) bothEnds).result = .ok artifacts ∧
      ∃ a ∈ artifacts, ∃ e, Entry.at? a.selection ["users"] = some e ∧
        e.head.connection = true ∧ ¬ e.HasPageInfo := by
  have hentry : ((runPipeline (config anyPage) bothEnds).result.toOption.map fun artifacts =>
      artifacts.any fun a => (Entry.at? a.selection ["users"]).any fun e =>
        e.head.connection
          && (e.fields.bind (Entry.at? · ["pageInfo", "hasNextPage"])).isNone) = some true := by
    decide +kernel
  cases h : (runPipeline (config anyPage) bothEnds).result with
  | error e => rw [h] at hentry; exact absurd hentry nofun
  | ok artifacts =>
    rw [h] at hentry
    obtain ⟨a, ha, he⟩ := List.any_eq_true.mp (Option.some.inj hentry)
    cases hat : Entry.at? a.selection ["users"] with
    | none => rw [hat] at he; exact absurd he nofun
    | some e =>
      rw [hat, Option.any_some, Bool.and_eq_true, Option.isNone_iff_eq_none] at he
      refine ⟨artifacts, rfl, a, ha, e, hat, he.1, fun hpageInfo => ?_⟩
      obtain ⟨fields, below, hfields, hbelow⟩ :=
        hpageInfo ["pageInfo", "hasNextPage"] (by decide)
      rw [hfields, Option.bind_some, hbelow] at he
      exact absurd he.2 nofun

end QueryCompiler
