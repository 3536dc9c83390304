import QueryCompiler.Proofs.Lists.Untagged
import QueryCompiler.Proofs.RefetchPath
/-
# What a run leaves of its documents

Three passes go over one list of documents.  The first two put new documents at its end, and all of
them may replace what a document defines; but none takes a document away, moves it or renames it.
So a run that succeeds ends with the documents that it was given, the queries that refetch them, and
what is generated for lists; and it has an artifact for each of these that wants one.

* `paged_version`, `tagged_version`: what a pass keeps of a document;
* `refetchers_of_paged`, `refetchers_eq_nil`: which documents a query is added for;
* `runPipeline_shape`: the documents and the artifacts of a run.
-/
namespace QueryCompiler

/-- What a document is apart from its definitions, which passes replace, and from what it says of
refetching. -/
structure Document.IsVersionOf (d' d : Document) : Prop where
  kind : d'.kind = d.kind
  name : d'.name = d.name
  filename : d'.filename = d.filename
  generate : d'.generate = d.generate

theorem Document.IsVersionOf.trans {d d' d'' : Document} (h : d''.IsVersionOf d')
    (h' : d'.IsVersionOf d) : d''.IsVersionOf d :=
  ⟨h.kind.trans h'.kind, h.name.trans h'.name, h.filename.trans h'.filename,
    h.generate.trans h'.generate⟩

variable {c : Config} {d d' : Document}

/-! ## 1. One document -/

theorem paged_version (d : Document) : (d.paged c).IsVersionOf d := by
  rw [Document.paged, paginateDocument]
  split
  · exact ⟨rfl, rfl, rfl, rfl⟩
  · split
    · exact ⟨rfl, rfl, rfl, rfl⟩
    · dsimp only
      split
      · exact ⟨rfl, rfl, rfl, rfl⟩
      · split
        · exact ⟨rfl, rfl, rfl, rfl⟩
        · split <;> exact ⟨rfl, rfl, rfl, rfl⟩

/-- The list pass does not touch what a document says of refetching either. -/
theorem tagged_version (h : d.tagged c = .ok d') : d'.IsVersionOf d ∧ d'.refetch = d.refetch := by
  rw [Document.tagged, tagDocument] at h
  split at h
  · obtain rfl := Except.ok.inj h
    split <;> exact ⟨⟨rfl, rfl, rfl, rfl⟩, rfl⟩
  · cases h

/-- **A fragment with paginated fields** has one query that refetches it, as the fragment says. -/
theorem refetchers_of_paged {f : Fragment} (hdefinition : d.definitions = [.fragment f])
    (hpaged : (Definition.fragment f).paginatedFields c ≠ []) (hnamed : f.condition ≠ "")
    (hok : (paginateDocument c d).2.isOk = true) :
    ∃ query refetch, (d.paged c).refetch = some refetch ∧
      d.refetchers c = [refetchDocument (d.paged c) (c.paginationQueryName f.name) query refetch] := by
  obtain ⟨ps, p, hp⟩ := (List.eq_nil_or_concat _).resolve_left hpaged
  rw [List.concat_eq_append] at hp
  obtain ⟨ss, state, -, refetch, -, hd', hown⟩ := (paginateDocument_fragment hdefinition hp).mp
    ((@paginateDocument_eq_ok c d _ _).mpr ⟨hok, rfl, rfl⟩)
  rw [if_neg fun he => hnamed (String.isEmpty_iff.mp he)] at hown
  obtain ⟨query, -, hown⟩ := hown
  exact ⟨query, refetch, by rw [hd']; rfl, hown⟩

/-- Nothing else is refetched by a query of its own. -/
theorem refetchers_eq_nil {definition : Definition} (hdefinition : d.definitions = [definition])
    (hother : ∀ f, definition = .fragment f → (Definition.fragment f).paginatedFields c = [])
    (hok : (paginateDocument c d).2.isOk = true) : d.refetchers c = [] := by
  by_cases hpaged : definition.paginatedFields c = []
  · exact (paged_unpaginated hdefinition hok hpaged).2
  · cases definition with
    | operation o =>
      obtain ⟨ps, p, hp⟩ := (List.eq_nil_or_concat _).resolve_left hpaged
      rw [List.concat_eq_append] at hp
      obtain ⟨-, _, _, -, -, hown⟩ := (paginateDocument_operation hdefinition hp).mp
        ((@paginateDocument_eq_ok c d _ _).mpr ⟨hok, rfl, rfl⟩)
      exact hown
    | fragment f => exact absurd (hother f rfl) hpaged
    | schema _ | type _ | directive _ => exact absurd rfl hpaged

/-! ## 2. All documents -/

/-- What the two passes make of a document, and of the queries that refetch it. -/
def Document.Ends (c : Config) (d : Document) (after : Document × List Document) : Prop :=
  (d.paged c).tagged c = .ok after.1 ∧ (d.refetchers c).mapM (·.tagged c) = .ok after.2

/-- After the list pass the documents still come first, and the queries in the order of what they
refetch. -/
theorem exists_ends : ∀ {documents kept added : List Document},
    (documents.map (·.paged c)).mapM (·.tagged c) = .ok kept →
    (documents.flatMap (·.refetchers c)).mapM (·.tagged c) = .ok added →
      ∃ after, List.Forall₂ (Document.Ends c) documents after ∧
        kept = after.map (·.1) ∧ added = after.flatMap (·.2)
  | [], kept, added, hkept, hadded => by
    obtain rfl := Except.ok.inj hkept
    obtain rfl := Except.ok.inj hadded
    exact ⟨[], .nil, rfl, rfl⟩
  | d :: documents, kept, added, hkept, hadded => by
    rw [List.map_cons] at hkept
    rw [List.flatMap_cons, List.mapM_append] at hadded
    simp only [List.mapM_cons, bind_eq_ok, pure_eq_ok] at hkept hadded
    obtain ⟨d', hd', kept, hkept, rfl⟩ := hkept
    obtain ⟨own, hown, added, hadded, rfl⟩ := hadded
    obtain ⟨after, hafter, rfl, rfl⟩ := exists_ends hkept hadded
    exact ⟨(d', own) :: after, .cons ⟨hd', hown⟩ hafter, rfl, rfl⟩

/-- **What a run leaves of a document**: a version of it, and at most one query that refetches it.  A
fragment with a paginated field has that query, named after the fragment, and both say the same of
refetching; no other document has one.  A document without tags comes back as it was given, to the
list pass and from it. -/
structure Document.Leaves (c : Config) (d : Document) (after : Document × List Document) :
    Prop where
  version : after.1.IsVersionOf d
  refetched : ∀ f, d.definitions = [.fragment f] → f.condition ≠ "" →
    (Definition.fragment f).paginatedFields c ≠ [] → ∃ q refetch, after.2 = [q] ∧
      q.kind = .query ∧ q.name = c.paginationQueryName f.name ∧ q.filename = d.filename ∧
      q.generate = true ∧ after.1.refetch = some refetch ∧ q.refetch = some refetch
  others : (∀ f, d.definitions = [.fragment f] →
    (Definition.fragment f).paginatedFields c = []) → after.2 = []
  untagged : d.Untagged c → d.paged c = d ∧ d.tagged c = .ok d ∧ after.1 = d

theorem Document.Ends.leaves {after : Document × List Document} {definition : Definition}
    (h : d.Ends c after) (hdefinition : d.definitions = [definition])
    (hok : (paginateDocument c d).2.isOk = true) : d.Leaves c after := by
  obtain ⟨after, queries⟩ := after
  obtain ⟨hafter, hqueries⟩ := h
  obtain ⟨hversion, hrefetch⟩ := tagged_version hafter
  refine ⟨hversion.trans (paged_version d), fun f hf hnamed hpaged => ?_, fun hother => ?_,
    fun huntagged => ?_⟩
  · obtain ⟨query, refetch, hr, hown⟩ := refetchers_of_paged hf hpaged hnamed hok
    rw [hown, mapM_eq_ok, List.forall₂_cons_left_iff] at hqueries
    obtain ⟨q, _, hq, hnil, rfl⟩ := hqueries
    obtain rfl := List.forall₂_nil_left_iff.mp hnil
    obtain ⟨hqversion, hqrefetch⟩ := tagged_version hq
    exact ⟨q, refetch, rfl, hqversion.kind, hqversion.name,
      hqversion.filename.trans (paged_version d).filename, hqversion.generate,
      hrefetch.trans hr, hqrefetch⟩
  · have hnone := refetchers_eq_nil hdefinition (fun f hf => hother f (hf ▸ hdefinition)) hok
    rw [hnone] at hqueries
    exact (Except.ok.inj hqueries).symm
  · have hlists : c.Untagged definition.directiveLists := by
      rw [Document.Untagged, hdefinition, List.flatMap_singleton] at huntagged
      exact huntagged
    have hpaged := (paged_unpaginated hdefinition hok (paginatedFields_untagged hlists)).1
    have htagged := tagged_untagged huntagged
    rw [hpaged, htagged] at hafter
    exact ⟨hpaged, htagged, (Except.ok.inj hafter).symm⟩

/-! ## 3. Runs -/

variable {documents : List Document} {artifacts : List Artifact}

/-- What a run ends with: what it leaves of its documents, one after the other, and what is
generated for lists. -/
structure RunShape (c : Config) (documents : List Document) (artifacts : List Artifact)
    (after : List (Document × List Document)) (generated : List Document) : Prop where
  /-- The documents come first, in their places, and the queries that refetch them next. -/
  final : (runPipeline c documents).documents
    = after.map (·.1) ++ after.flatMap (·.2) ++ generated
  left : List.Forall₂ (Document.Leaves c) documents after
  ungenerated : runRegistry c documents = [] → generated = []
  generated : runRegistry c documents ≠ [] → ∃ definitions,
    listDefinitions c (runRegistry c documents) = .ok definitions ∧
      generated = [generatedDocument definitions]
  /-- An artifact is that of a document, and the order is that of the documents. -/
  wanted : List.Forall₂ (fun d a => a.name = d.name ∧ a.kind = d.kind ∧ a.refetch = d.refetch)
    ((runPipeline c documents).documents.filter (·.generate)) artifacts

/-- **The shape of a run that succeeds** over documents with one definition each. -/
theorem runPipeline_shape (h : (runPipeline c documents).result = .ok artifacts)
    (hsingle : ∀ d ∈ documents, ∃ definition, d.definitions = [definition]) :
    ∃ after generated, RunShape c documents artifacts after generated := by
  obtain ⟨paged, refetched, new, hpaged, hnew, hfinal, hregistry, -⟩ := runPipeline_eq_ok h
  obtain ⟨-, -, -, -, -, hartifacts⟩ := runPipeline_result.mp h
  obtain ⟨hpaginated, rfl, rfl⟩ := paginate_eq_ok.mp hpaged
  obtain ⟨tagged, st, htag, herrors, hst, hdocuments, -⟩ := addListFragments_eq_ok hnew
  -- the documents and the queries come to the list pass in one list
  have hvisited := (tagDocuments_run htag).1
  rw [pagedDocuments, List.mapM_append] at hvisited
  simp only [bind_eq_ok, pure_eq_ok] at hvisited
  obtain ⟨kept, hkept, added, hadded, rfl⟩ := hvisited
  obtain ⟨after, hafter, rfl, rfl⟩ := exists_ends hkept hadded
  have hgenerated : generatedDocuments c (runRegistry c documents) = .ok new := by
    rw [hregistry, hst, ← hnew, (addListFragments_eq htag).1, if_pos herrors]
  refine ⟨after, new, hfinal.trans hdocuments, ?_, fun hempty => ?_, fun hlists => ?_, ?_⟩
  · have hsuccess : ∀ d ∈ documents, (paginateDocument c d).2.isOk = true ∧
        ∃ definition, d.definitions = [definition] :=
      fun d hd => ⟨hpaginated d hd, hsingle d hd⟩
    refine ((List.forall₂_and_left _ _).mpr ⟨hsuccess, hafter⟩).imp ?_
    rintro d after ⟨⟨hok, definition, hdefinition⟩, hends⟩
    exact hends.leaves hdefinition hok
  · rw [generatedDocuments, if_pos hempty] at hgenerated
    exact (Except.ok.inj hgenerated).symm
  · rw [generatedDocuments, if_neg hlists] at hgenerated
    obtain ⟨definitions, hdefinitions, hone⟩ := map_eq_ok.mp hgenerated
    exact ⟨definitions, hdefinitions, hone.symm⟩
  · exact (mapM_eq_ok.mp hartifacts).imp fun d a ha => ArtifactContext.compile_metadata ha

/-! ## 4. Headlines -/

namespace Sample

/-- A fragment with pages, one without tags, and one with a list. -/
def listedHeadlines : List Document :=
  headlines ++ [fragment "PostList" "User" [listField "posts" "Posts" [plainField "title" []]]]

/-- Documents that pagination has seen already. -/
def pagedHeadlines : List Document := pagedDocuments (config nodes) headlines

end Sample

open Sample in
/-- Three documents, a query that refetches the first, and what is generated for the list. -/
theorem listedHeadlines_shape :
    ∃ artifacts, (runPipeline (config nodes) listedHeadlines).result = .ok artifacts ∧
      ∃ after generated, RunShape (config nodes) listedHeadlines artifacts after generated ∧
        after.length = 3 ∧ generated.length = 1 := by
  have hok : (runPipeline (config nodes) listedHeadlines).result.isOk = true := by
    decide +kernel
  have hlists : runRegistry (config nodes) listedHeadlines ≠ [] := by
    have hone : (runRegistry (config nodes) listedHeadlines).length = 1 := by decide +kernel
    exact List.ne_nil_of_length_pos (hone ▸ Nat.one_pos)
  cases h : (runPipeline (config nodes) listedHeadlines).result with
  | error e => rw [h] at hok; cases hok
  | ok artifacts =>
    obtain ⟨after, generated, hshape⟩ := runPipeline_shape h
      (by simp [listedHeadlines, headlines, userPosts, fragment, Document.ofDefinitions])
    obtain ⟨_, -, hgenerated⟩ := hshape.generated hlists
    refine ⟨artifacts, rfl, after, generated, hshape, hshape.left.length_eq.symm, ?_⟩
    rw [hgenerated]
    rfl

open Sample in
/-- In a run over documents that have been paginated before, the query that refetches a fragment is a
document without tags, and it keeps what it says of refetching. -/
theorem pagedHeadlines_refetched :
    ∃ artifacts, (runPipeline (config nodes) pagedHeadlines).result = .ok artifacts ∧
      (∀ d ∈ pagedHeadlines, ∃ definition, d.definitions = [definition]) ∧
      ∃ q, pagedHeadlines[2]? = some q ∧ q.Untagged (config nodes) ∧
        ∃ q', (runPipeline (config nodes) pagedHeadlines).documents[2]? = some q' ∧
          q'.refetch ≠ none := by
  have hok : (runPipeline (config nodes) pagedHeadlines).result.isOk = true := by decide +kernel
  have hsingle : ∀ d ∈ pagedHeadlines, d.definitions.length = 1 := by decide +kernel
  have hq : (pagedHeadlines[2]?).map (fun q => decide (q.Untagged (config nodes)))
      = some true := by decide +kernel
  have hq' : ((runPipeline (config nodes) pagedHeadlines).documents[2]?).map (·.refetch.isSome)
      = some true := by decide +kernel
  obtain ⟨q, hat, huntagged⟩ := Option.map_eq_some_iff.mp hq
  obtain ⟨q', hat', hrefetch⟩ := Option.map_eq_some_iff.mp hq'
  cases h : (runPipeline (config nodes) pagedHeadlines).result with
  | error e => rw [h] at hok; cases hok
  | ok artifacts =>
    exact ⟨artifacts, rfl, fun d hd => List.length_eq_one_iff.mp (hsingle d hd), q, hat,
      of_decide_eq_true huntagged, q', hat', Option.isSome_iff_ne_none.mp hrefetch⟩

end QueryCompiler
