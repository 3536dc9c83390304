import QueryCompiler.Pipeline
import QueryCompiler.Proofs.Artifact.Places
import QueryCompiler.Proofs.Lists.Documents
import QueryCompiler.Proofs.Lists.Generated
import QueryCompiler.Proofs.Lists.Verdict
import QueryCompiler.Proofs.Pagination.Marks
/-
# Which entries are connections

A run of the pipeline registers lists, each with a verdict on whether it is a connection, and its
artifacts have entries that name a list and say on their own whether it is one.  The flag of an
entry goes back to the marks at the places of its path (`Occurrence.SaysConnection`).  The list
pass marks what the registry has as connections, but only at the places that stand in a document,
and not in a fragment generated for lists (`Occurrence.isMarked`): such a fragment holds what a
list selected of its members before any list below was marked.  So a list that is only reached
there is never a connection, and an entry that is reached both ways is one.

* `runPipeline_connection`: when an entry is a connection, and what its places have to do with the
  flags of the registry.
-/
namespace QueryCompiler

/-! ## 1. What a place says of its list -/

/-- Whether the site is in a fragment generated for lists. -/
def Site.isGenerated (c : Config) (r : Registry) (site : Site) : Bool :=
  site.fragment.any fun name => (r.operation? c name).isSome

namespace Occurrence

/-- Whether the list pass has marked the field of the place for a list of some name: the place is
not in a generated fragment, the type of the field is known, and the list is a connection. -/
def isMarked (c : Config) (r : Registry) (o : Occurrence) (list : String) : Bool :=
  !o.site.isGenerated c r && r.marks c o.site.ancestors o.field.name list

/-- The field of the place is a list, and its directive says that this is a connection: on its own,
or, if it says nothing on its own, by the mark of the pass. -/
structure SaysConnection (c : Config) (r : Registry) (o : Occurrence) : Prop where
  field : o.field.name ≠ typenameField
  list : ∃ name d, namedList? c o.field.directives = some (name, d) ∧
    (marksConnection (d.unmark (o.isMarked c r name)) = .ok true ∨
      argument? (d.unmark (o.isMarked c r name)).arguments "connection" = none ∧
        o.isMarked c r name = true)

/-- The field of the place is a list that is registered as a connection, and the pass has come past
it: it is not in a generated fragment, and its type is known. -/
structure ListsConnection (c : Config) (r : Registry) (o : Occurrence) : Prop where
  field : o.field.name ≠ typenameField
  written : o.site.isGenerated c r = false
  known : c.schema.knows o.site.ancestors o.field.name = true
  registered : ∃ name d l, namedList? c o.field.directives = some (name, d) ∧
    Table.get? r name = some l ∧ l.connection = true

variable {c : Config} {r : Registry}

theorem isMarked_iff {o : Occurrence} {list : String} :
    o.isMarked c r list = true ↔ o.site.isGenerated c r = false ∧
      c.schema.knows o.site.ancestors o.field.name = true ∧
      ∃ l, Table.get? r list = some l ∧ l.connection = true := by
  rw [isMarked, Registry.marks, Registry.isConnection, Bool.and_eq_true, Bool.and_eq_true,
    Bool.not_eq_true', Option.any_eq_true]

/-- The text of generated definitions has no say in it. -/
theorem saysConnection_newSchema (o : Occurrence) (text : String) :
    o.SaysConnection { c with newSchema := text } r ↔ o.SaysConnection c r :=
  ⟨fun h => ⟨h.field, h.list⟩, fun h => ⟨h.field, h.list⟩⟩

/-- Without marks of its own, a place says what the pass has marked. -/
theorem saysConnection_iff_isMarked {o : Occurrence}
    (h : o.field.MarkedBy c (fun _ => False) (o.isMarked c r)) :
    o.SaysConnection c r ↔ o.field.name ≠ typenameField ∧
      ∃ name d, namedList? c o.field.directives = some (name, d) ∧
        o.isMarked c r name = true := by
  constructor
  · rintro ⟨hfield, name, d, hlist, hsaid⟩
    obtain ⟨own, rfl, hown⟩ := h name d hlist
    rw [Directive.unmark_mark] at hsaid
    refine ⟨hfield, name, _, hlist, (hsaid.resolve_left fun hmarks => ?_).2⟩
    rw [marksConnection, Option.eq_none_iff_forall_ne_some.mpr hown] at hmarks
    cases hmarks
  · rintro ⟨hfield, name, d, hlist, hmarked⟩
    obtain ⟨own, rfl, hown⟩ := h name d hlist
    refine ⟨hfield, name, _, hlist, .inr ⟨?_, hmarked⟩⟩
    rw [Directive.unmark_mark]
    exact Option.eq_none_iff_forall_ne_some.mpr hown

/-- **Without marks of its own, a place says what the registry says of its list**, if the pass has
come past it. -/
theorem saysConnection_iff_listsConnection {o : Occurrence}
    (h : o.field.MarkedBy c (fun _ => False) (o.isMarked c r)) :
    o.SaysConnection c r ↔ o.ListsConnection c r := by
  rw [saysConnection_iff_isMarked h]
  constructor
  · rintro ⟨hfield, name, d, hlist, hmarked⟩
    obtain ⟨hwritten, hknown, l, hl, hconnection⟩ := isMarked_iff.mp hmarked
    exact ⟨hfield, hwritten, hknown, name, d, l, hlist, hl, hconnection⟩
  · rintro ⟨hfield, hwritten, hknown, name, d, l, hlist, hl, hconnection⟩
    exact ⟨hfield, name, d, hlist, isMarked_iff.mpr ⟨hwritten, hknown, l, hl, hconnection⟩⟩

end Occurrence

/-- What is known of a field at a site. -/
def SiteVerdict (c : Config) (P : Argument → Prop) (r : Registry) (fragment : Option String)
    (ancestors : List Ancestor) (head : FieldHead) : Prop :=
  head.MarkedBy c P fun list =>
    !Site.isGenerated c r { fragment, ancestors } && r.marks c ancestors head.name list

section SiteVerdict

variable {c : Config} {P : Argument → Prop} {r : Registry}

theorem siteVerdict_plain {fragment : Option String} (ancestors : List Ancestor) (name : String) :
    SiteVerdict c P r fragment ancestors (.plain name) := markedBy_plain name _

theorem siteVerdict_generated {fragment : String} (h : (r.operation? c fragment).isSome = true)
    {ancestors : List Ancestor} {head : FieldHead} (hm : head.MarksIn c P) :
    SiteVerdict c P r (some fragment) ancestors head := by
  rw [SiteVerdict, Site.isGenerated, Option.any_some, h]
  exact hm.markedBy

theorem siteVerdict_written {fragment : String} (h : ¬(r.operation? c fragment).isSome = true)
    {ancestors : List Ancestor} {head : FieldHead} (hv : Verdict c P r ancestors head) :
    SiteVerdict c P r (some fragment) ancestors head := by
  rw [SiteVerdict, Site.isGenerated, Option.any_some, Bool.eq_false_iff.mpr h]
  exact hv

end SiteVerdict

theorem EntryHead.connection_withList {c : Config} {field : FieldHead} {h h' : EntryHead}
    (hh : h.connection = false) (hw : h.withList c field = .ok h') :
    h'.connection = true ↔
      ∃ name d, namedList? c field.directives = some (name, d) ∧ marksConnection d = .ok true := by
  rw [withList] at hw
  cases hn : namedList? c field.directives with
  | none =>
    rw [hn] at hw
    obtain rfl := Except.ok.inj hw
    exact iff_of_false (by rw [hh]; exact nofun) fun ⟨_, _, h, _⟩ => absurd h nofun
  | some list =>
    obtain ⟨name, d⟩ := list
    rw [hn] at hw
    simp only [bind_eq_ok, pure_eq_ok] at hw
    obtain ⟨connection, hconnection, filters, -, rfl⟩ := hw
    constructor
    · exact fun hc => ⟨name, d, rfl, by rw [hconnection]; exact congrArg _ hc⟩
    · rintro ⟨name', d', hrow, hmarks⟩
      obtain ⟨rfl, rfl⟩ := Prod.mk.inj (Option.some.inj hrow)
      exact Except.ok.inj (hconnection.symm.trans hmarks)

/-- A place makes its entry a connection by its mark. -/
theorem Compilation.HeadOf.connection {x : Compilation} {o : Occurrence} {h : EntryHead}
    (hh : x.HeadOf o h) : h.connection = true ↔ o.field.name ≠ typenameField ∧
      ∃ name d, namedList? x.config o.field.directives = some (name, d) ∧
        marksConnection d = .ok true := by
  rw [HeadOf] at hh
  split at hh
  · rename_i ht
    rw [hh]
    exact iff_of_false nofun fun hn => hn.1 ht
  · rename_i ht
    obtain ⟨f, key, -, -, hh⟩ := hh
    simp only [entryHead, bind_eq_ok] at hh
    obtain ⟨listed, hlisted, hh⟩ := hh
    have hconnection : h.connection = listed.connection := by
      split at hh
      · simp only [bind_eq_ok, pure_eq_ok] at hh
        obtain ⟨operations, -, rfl⟩ := hh
        rfl
      · rw [pure_eq_ok] at hh
        rw [hh]
    rw [hconnection, EntryHead.connection_withList rfl hlisted, and_iff_right ht]

/-- Where the verdict is known, a place makes its entry a connection exactly if it says so. -/
theorem Compilation.HeadOf.saysConnection {x : Compilation} {P : Argument → Prop} {r : Registry}
    {o : Occurrence} {h : EntryHead} (hh : x.HeadOf o h)
    (hv : o.field.MarkedBy x.config P (o.isMarked x.config r)) :
    h.connection = true ↔ o.SaysConnection x.config r := by
  rw [hh.connection]
  constructor
  · rintro ⟨ht, name, d, hlist, hmarks⟩
    obtain ⟨own, rfl, -⟩ := hv name d hlist
    refine ⟨ht, name, _, hlist, ?_⟩
    rw [Directive.unmark_mark]
    exact marksConnection_mark.mp hmarks
  · rintro ⟨ht, name, d, hlist, hsaid⟩
    obtain ⟨own, rfl, -⟩ := hv name d hlist
    rw [Directive.unmark_mark] at hsaid
    exact ⟨ht, name, _, hlist, marksConnection_mark.mpr hsaid⟩

/-! ## 2. Places of an artifact -/

namespace ArtifactContext

variable {x : ArtifactContext} {d : Document} {a : Artifact} {main : Executable}
  {others : List Fragment} {r : Registry}

/-- The verdicts on all fields that an artifact of a document can show: those of the document are
marked as the registry has it, and those that stand in a fragment of the table as their site has. -/
structure Judged (x : ArtifactContext) (P : Argument → Prop) (r : Registry) (d : Document) :
    Prop where
  own : ∀ e, d.executable = .ok e →
    EveryIn (fun a head _ => Verdict x.config P r a head) [e.ancestor] e.selections
  fragments : ∀ name f, Table.get? x.fragments name = some f →
    EveryIn (fun a head _ => SiteVerdict x.config P r (some name) a head) [.fragment f.condition]
      f.selections

variable {P : Argument → Prop}

/-- **Every place of an artifact has the verdict of its site.** -/
theorem places_verdict (hnamed : NamedByKey x.fragments) (hx : x.Judged P r d)
    (hdefs : x.compiledDefinitions d = .ok (main, others)) {os : List Occurrence}
    (h : Expands (Table.get? (x.compilation d main others).trimmed.fragments)
      { fragment := none, ancestors := [main.ancestor] } (trimAll main.selections) os) :
    ∀ o ∈ os, o.field.MarkedBy x.config P (o.isMarked x.config r) := by
  have hverdicts : x.Throughout (fun site a head _ => SiteVerdict x.config P r site a head) d :=
    ⟨hx.own, hx.fragments⟩
  exact places_have (fun _ ancestors name _ => siteVerdict_plain ancestors name)
    (fun _ _ _ _ hv => hv) (fun _ _ _ _ hv => hv) hnamed hverdicts hdefs h

/-- **An entry is a connection if one of its places says so**, in what the artifact shows. -/
theorem connection_shows (hnamed : NamedByKey x.fragments) (hx : x.Judged P r d)
    (h : x.compile d = .ok a) :
    ∃ main others rows, x.compiledDefinitions d = .ok (main, others) ∧
      Expands (Table.get? (x.compilation d main others).trimmed.fragments)
        { fragment := none, ancestors := [main.ancestor] } (trimAll main.selections)
        (places rows) ∧
      Shows a.selection rows ∧
      ∀ p e, Entry.at? a.selection p = some e →
        (e.head.connection = true ↔
          ∃ o ∈ places rows, o.path = p ∧ o.SaysConnection x.config r) := by
  obtain ⟨main, others, rows, hdefs, hrows, hshows⟩ := compile_shows_trimmed h
  have hverdict := places_verdict hnamed hx hdefs hrows.expands
  have hmerge : ∀ a b : EntryHead,
      (a.merge b).connection = true ↔ a.connection = true ∨ b.connection = true :=
    fun a b => Iff.of_eq (Bool.or_eq_true a.connection b.connection)
  have hplace : ∀ row ∈ rows, row.2.connection = true ↔ row.1.SaysConnection x.config r :=
    fun row hr => (hrows.heads row hr).saysConnection
      (hverdict row.1 (List.mem_map.mpr ⟨row, hr, rfl⟩))
  exact ⟨main, others, rows, hdefs, hrows.expands, hshows, fun p e he =>
    hshows.head_iff (·.connection = true) (·.SaysConnection x.config r) hmerge hplace he⟩

theorem connection_iff (hnamed : NamedByKey x.fragments) (hx : x.Judged P r d)
    (h : x.compile d = .ok a) :
    ∃ main others os, x.compiledDefinitions d = .ok (main, others) ∧
      Expands (Table.get? (x.compilation d main others).trimmed.fragments)
        { fragment := none, ancestors := [main.ancestor] } (trimAll main.selections) os ∧
      ∀ p e, Entry.at? a.selection p = some e →
        (e.head.connection = true ↔ ∃ o ∈ os, o.path = p ∧ o.SaysConnection x.config r) := by
  obtain ⟨main, others, rows, hdefs, hexpands, -, hconnection⟩ := connection_shows hnamed hx h
  exact ⟨main, others, places rows, hdefs, hexpands, hconnection⟩

end ArtifactContext

/-! ## 3. Runs -/

/-- The lists that a run registers. -/
def runRegistry (c : Config) (documents : List Document) : Registry :=
  (addListFragments c [] (paginate c documents).1).registry

/-- What the artifacts of a run are compiled with. -/
def runContext (c : Config) (documents : List Document) : ArtifactContext :=
  .ofDocuments { c with newSchema := (runPipeline c documents).newSchema } (runRegistry c documents)
    (runPipeline c documents).documents

variable {c : Config} {documents : List Document} {artifacts : List Artifact}

/-- What a run that succeeds has gone through. -/
theorem runPipeline_eq_ok (h : (runPipeline c documents).result = .ok artifacts) :
    ∃ paged refetched new, paginate c documents = (paged, .ok refetched) ∧
      (addListFragments c [] paged).result = .ok new ∧
      (runPipeline c documents).documents = (addListFragments c [] paged).documents ∧
      runRegistry c documents = (addListFragments c [] paged).registry ∧
      ∀ a ∈ artifacts, ∃ d ∈ (runPipeline c documents).documents, d.generate = true ∧
        (runContext c documents).compile d = .ok a := by
  rcases hpaged : paginate c documents with ⟨paged, e | refetched⟩
  · rw [runPipeline, hpaged] at h
    exact absurd h nofun
  · have hrun : runPipeline c documents = {
        documents := (addListFragments c [] paged).documents
        newSchema := (addListFragments c [] paged).newSchema
        result := do
          let _ ← (addListFragments c [] paged).result
          compileArtifacts { c with newSchema := (addListFragments c [] paged).newSchema }
            (addListFragments c [] paged).registry (addListFragments c [] paged).documents } := by
      rw [runPipeline, hpaged]
    have hregistry : runRegistry c documents = (addListFragments c [] paged).registry := by
      rw [runRegistry, hpaged]
    have hcontext : runContext c documents = .ofDocuments
        { c with newSchema := (addListFragments c [] paged).newSchema }
        (addListFragments c [] paged).registry (addListFragments c [] paged).documents := by
      rw [runContext, hregistry, hrun]
    rw [hrun] at h
    obtain ⟨new, hnew, hartifacts⟩ := bind_eq_ok.mp h
    refine ⟨paged, refetched, new, rfl, hnew, by rw [hrun], hregistry, fun a ha => ?_⟩
    obtain ⟨d, hd, hcompile⟩ := exists_of_forall₂ (mapM_eq_ok.mp hartifacts) ha
    obtain ⟨hd, hgenerate⟩ := List.mem_filter.mp hd
    exact ⟨d, by rw [hrun]; exact hd, hgenerate, hcontext ▸ hcompile⟩

theorem Executable.mem_executables {d : Document} {e : Executable} (h : d.executable = .ok e) :
    e ∈ d.executables := by
  refine List.mem_filterMap.mpr ⟨e.definition, ArtifactContext.executable_mem h, ?_⟩
  cases e <;> rfl

/-- A document that the list pass has left has the verdict of the registry at all its fields. -/
theorem Settles.verdict {P : Argument → Prop} {r : Registry} {d d' : Document}
    (hu : d.MarksIn c P) (h : Settles c r d d') {e : Executable} (he : e ∈ d'.executables) :
    EveryIn (fun a head _ => Verdict c P r a head) [e.ancestor] e.selections :=
  h.everyIn (fun e he => everyIn_verdict rfl (hu e he) (h.registered e he)) e he

/-- **What a run that succeeds is compiled from.**  The list pass has settled the paginated
documents; an artifact is made of one of these, and it spreads fragments of these and fragments
generated for lists, which have no marks but those of the documents. -/
theorem runPipeline_settled (h : (runPipeline c documents).result = .ok artifacts) :
    ∃ paged refetched tagged, paginate c documents = (paged, .ok refetched) ∧
      List.Forall₂ (Settles c (runRegistry c documents)) paged tagged ∧
      (∀ d ∈ (runPipeline c documents).documents, d.generate = true → d ∈ tagged) ∧
      ∀ P : Argument → Prop, (∀ d ∈ documents, d.MarksIn c P) →
        ∀ name f, Table.get? (runContext c documents).fragments name = some f →
          if ((runRegistry c documents).operation? c name).isSome then MarksIn c P f.selections
          else ∃ d ∈ tagged, Executable.fragment f ∈ d.executables := by
  obtain ⟨paged, refetched, new, hpaged, hnew, hdocuments, hregistry, -⟩ := runPipeline_eq_ok h
  obtain ⟨tagged, st, htag, herrors, hst, hafter, hgenerated⟩ := addListFragments_eq_ok hnew
  rw [hregistry, hst, hdocuments, hafter]
  have hend : Tagging.LeadsTo st st.registry true := ⟨herrors, fun _ _ hl => hl, fun _ => rfl⟩
  refine ⟨paged, refetched, tagged, hpaged, ?_, fun d hd hgenerate => ?_, fun P hP name f hf => ?_⟩
  · obtain ⟨-, hsettles⟩ := tagDocuments_settles (fun d _ => d.marksIn_true) htag
    exact (hsettles st.registry hend).2
  · -- the document that is generated for lists makes no artifact
    refine (List.mem_append.mp hd).resolve_right fun hd => ?_
    rcases hgenerated with ⟨-, rfl⟩ | ⟨definitions, -, rfl⟩
    · exact absurd hd List.not_mem_nil
    · rw [List.mem_singleton.mp hd] at hgenerate
      exact absurd hgenerate nofun
  · obtain ⟨hcaptured, -⟩ := tagDocuments_settles (paginate_marksIn hP hpaged) htag
    -- the pass starts with an empty registry, so all that it holds was captured on the way
    have hregistryMarks : RegistryMarks c P st.registry :=
      hcaptured fun _ hrow => absurd hrow List.not_mem_nil
    have htable : Table.get? (fragmentTable (tagged ++ new)) name = some f := by
      rw [← hafter, ← hdocuments]
      exact hf
    exact fragmentTable_generated hregistryMarks hgenerated htable

/-- A run that succeeds has the verdict of its registry at all fields that its artifacts show. -/
theorem runPipeline_judged (h : (runPipeline c documents).result = .ok artifacts)
    {P : Argument → Prop} (hP : ∀ d ∈ documents, d.MarksIn c P) {d : Document}
    (hd : d ∈ (runPipeline c documents).documents) (hgenerate : d.generate = true) :
    (runContext c documents).Judged P (runRegistry c documents) d := by
  obtain ⟨paged, refetched, tagged, hpaged, hsettled, hown, hfragments⟩ := runPipeline_settled h
  have hverdict : ∀ d ∈ tagged, ∀ e ∈ d.executables, EveryIn
      (fun a head _ => Verdict c P (runRegistry c documents) a head) [e.ancestor] e.selections := by
    intro d' hd' e he
    obtain ⟨d₀, hd₀, hs⟩ := exists_of_forall₂ hsettled hd'
    exact hs.verdict (paginate_marksIn hP hpaged d₀ hd₀) he
  constructor
  · exact fun e he => hverdict d (hown d hd hgenerate) e (Executable.mem_executables he)
  · intro name f hf
    have hsource := hfragments P hP name f hf
    change EveryIn (fun a head _ => SiteVerdict c P (runRegistry c documents) (some name) a head) _ _
    split at hsource
    · rename_i hop
      exact hsource.elsewhere.mono fun _ _ _ hm => siteVerdict_generated hop hm
    · rename_i hop
      obtain ⟨d', hd', he⟩ := hsource
      exact (hverdict d' hd' (.fragment f) he).mono fun _ _ _ hv => siteVerdict_written hop hv

/-- **When an entry of an artifact is a connection.**  Each place has the marks that the documents
have there, and the mark of the pass if the pass has marked it.  Where the documents have no marks,
a place says that it is a connection exactly if its list is registered as one, it is not in a
generated fragment, and its type is known.  An entry is a connection exactly if one of its places
says so. -/
theorem runPipeline_connection (h : (runPipeline c documents).result = .ok artifacts) :
    ∀ a ∈ artifacts, ∃ d ∈ (runPipeline c documents).documents, ∃ main others os,
      (runContext c documents).compile d = .ok a ∧
      (runContext c documents).compiledDefinitions d = .ok (main, others) ∧
      Expands (Table.get? ((runContext c documents).compilation d main others).trimmed.fragments)
        { fragment := none, ancestors := [main.ancestor] } (trimAll main.selections) os ∧
      (∀ P : Argument → Prop, (∀ d ∈ documents, d.MarksIn c P) →
        ∀ o ∈ os, o.field.MarkedBy c P (o.isMarked c (runRegistry c documents))) ∧
      ((∀ d ∈ documents, d.MarksIn c fun _ => False) → ∀ o ∈ os,
        (o.SaysConnection c (runRegistry c documents) ↔
          o.ListsConnection c (runRegistry c documents))) ∧
      ∀ p e, Entry.at? a.selection p = some e →
        (e.head.connection = true ↔
          ∃ o ∈ os, o.path = p ∧ o.SaysConnection c (runRegistry c documents)) := by
  intro a ha
  obtain ⟨paged, refetched, new, -, -, -, -, hall⟩ := runPipeline_eq_ok h
  obtain ⟨d, hd, hgenerate, hcompile⟩ := hall a ha
  have hjudged (P : Argument → Prop) (hP : ∀ d ∈ documents, d.MarksIn c P) :=
    runPipeline_judged h hP hd hgenerate
  have hnamed : NamedByKey (runContext c documents).fragments := namedByKey_fragmentTable _
  obtain ⟨main, others, os, hdefs, hexpands, hconnection⟩ := ArtifactContext.connection_iff hnamed
    (hjudged (fun _ => True) fun d _ => d.marksIn_true) hcompile
  have hmarked (P : Argument → Prop) (hP : ∀ d ∈ documents, d.MarksIn c P) :
      ∀ o ∈ os, o.field.MarkedBy c P (o.isMarked c (runRegistry c documents)) :=
    ArtifactContext.places_verdict hnamed (hjudged P hP) hdefs hexpands
  refine ⟨d, hd, main, others, os, hcompile, hdefs, hexpands, hmarked, fun hP o ho => ?_,
    fun p e he => ?_⟩
  · exact Occurrence.saysConnection_iff_listsConnection (hmarked _ hP o ho)
  · rw [hconnection p e he]
    exact exists_congr fun o => and_congr_right fun _ => and_congr_right fun _ =>
      o.saysConnection_newSchema _

/-! ## 4. A list inside a list -/

namespace Sample

/-- Users, who have a connection of friends. -/
def users : Schema :=
  { types := [.scalar "String", .scalar "Boolean", .scalar "Int", .scalar "ID",
      .object "PageInfo" [] [⟨"hasPreviousPage", some [], .named "Boolean"⟩,
        ⟨"hasNextPage", some [], .named "Boolean"⟩, ⟨"startCursor", some [], .named "String"⟩,
        ⟨"endCursor", some [], .named "String"⟩],
      .object "UserEdge" [] [⟨"cursor", some [], .named "String"⟩,
        ⟨"node", some [], .named "User"⟩],
      .object "UserConnection" [] [⟨"edges", some [], .list (.named "UserEdge")⟩,
        ⟨"pageInfo", some [], .named "PageInfo"⟩],
      .object "User" [] [⟨"id", some [], .named "ID"⟩,
        ⟨"friends", some [("first", .named "Int"), ("after", .named "String")],
          .named "UserConnection"⟩],
      .object "Mutation" [] [⟨"addUser", some [], .named "User"⟩],
      .object "Query" [] [⟨"users", some [], .list (.named "User")⟩]]
    query := some "Query", mutation := some "Mutation", subscription := none }

/-- A field tagged with the name of its list. -/
def listField (name list : String) (selections : List Selection) : Selection :=
  .field { label := none, name, arguments := [], directives := [plainDirective "list"
    [{ name := "name", value := .string list false }]] } selections

/-- The list of users has the list of their friends among its members. -/
def nested : List Document :=
  [operation .query "Users" [listField "users" "Users" [plainField "id" [],
      listField "friends" "Friends" [plainField "edges" [plainField "node" [plainField "id" []]]]]],
    operation .mutation "AddUser" [plainField "addUser" [.spread "Users_insert" []]]]

end Sample

open Sample in
theorem nested_connection :
    ∃ artifacts, (runPipeline (config users) nested).result = .ok artifacts ∧ ∀ a ∈ artifacts,
      ∃ d ∈ (runPipeline (config users) nested).documents, ∃ main others os,
        (runContext (config users) nested).compile d = .ok a ∧
        (runContext (config users) nested).compiledDefinitions d = .ok (main, others) ∧
        Expands (Table.get?
            ((runContext (config users) nested).compilation d main others).trimmed.fragments)
          { fragment := none, ancestors := [main.ancestor] } (trimAll main.selections) os ∧
        (∀ P : Argument → Prop, (∀ d ∈ nested, d.MarksIn (config users) P) →
          ∀ o ∈ os, o.field.MarkedBy (config users) P
            (o.isMarked (config users) (runRegistry (config users) nested))) ∧
        ((∀ d ∈ nested, d.MarksIn (config users) fun _ => False) → ∀ o ∈ os,
          (o.SaysConnection (config users) (runRegistry (config users) nested) ↔
            o.ListsConnection (config users) (runRegistry (config users) nested))) ∧
        ∀ p e, Entry.at? a.selection p = some e →
          (e.head.connection = true ↔ ∃ o ∈ os, o.path = p ∧
            o.SaysConnection (config users) (runRegistry (config users) nested)) := by
  have hok : (runPipeline (config users) nested).result.isOk = true := by decide +kernel
  cases h : (runPipeline (config users) nested).result with
  | error e => rw [h] at hok; exact absurd hok nofun
  | ok artifacts => exact ⟨artifacts, rfl, runPipeline_connection h⟩

open Sample in
/-- The friends of a new user are a list that the registry knows as a connection, and the entry is
none: it only comes from a generated fragment. -/
theorem nested_disagrees :
    ∃ artifacts, (runPipeline (config users) nested).result = .ok artifacts ∧
      ∃ a ∈ artifacts, ∃ e l, Entry.at? a.selection ["addUser", "friends"] = some e ∧
        e.head.list = some "Friends" ∧
        Table.get? (runRegistry (config users) nested) "Friends" = some l ∧
        e.head.connection ≠ l.connection := by
  have hlist : (Table.get? (runRegistry (config users) nested) "Friends").map (·.connection)
      = some true := by decide +kernel
  have hentry : ((runPipeline (config users) nested).result.toOption.map fun artifacts =>
      artifacts.any fun a => (Entry.at? a.selection ["addUser", "friends"]).any fun e =>
        e.head.list = some "Friends" && !e.head.connection) = some true := by decide +kernel
  cases h : (runPipeline (config users) nested).result with
  | error e => rw [h] at hentry; exact absurd hentry nofun
  | ok artifacts =>
    rw [h] at hentry
    obtain ⟨a, ha, he⟩ := List.any_eq_true.mp (Option.some.inj hentry)
    obtain ⟨l, hl, hconnection⟩ := Option.map_eq_some_iff.mp hlist
    cases hat : Entry.at? a.selection ["addUser", "friends"] with
    | none => rw [hat] at he; exact absurd he nofun
    | some e =>
      rw [hat, Option.any_some, Bool.and_eq_true, decide_eq_true_iff, Bool.not_eq_true'] at he
      refine ⟨artifacts, rfl, a, ha, e, l, hat, he.1, hl, ?_⟩
      rw [he.2, hconnection]
      exact nofun

end QueryCompiler
