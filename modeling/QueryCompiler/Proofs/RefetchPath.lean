import QueryCompiler.Proofs.Refetch
import QueryCompiler.Proofs.Selection.OpenPaths
/-
# Refetch paths resolve

What a client is told about refetching names the paginated field by its path, as it stood in the
document before any pass.  The path is followed in the artifact: from its top for the document
itself, and for the query that refetches a fragment from where this fragment is spread
(`SelectionTree.Resolves`).

* `ArtifactContext.resolves_own`: open paths of a document resolve in its artifact;
* `ArtifactContext.resolves_spread`, `ArtifactContext.resolves_lookup`: open paths of a fragment
  resolve where a query spreads it;
* `runPipeline_refetch_resolves`: the paths of a run.
-/
namespace QueryCompiler

/-! ## 1. Artifacts -/

theorem Expands.of_mem_spread {fragment? : String → Option Fragment} {site : Site}
    {ss : List Selection} {os : List Occurrence} (h : Expands fragment? site ss os) {name : String}
    {directives : List Directive} (hmem : .spread name directives ∈ ss) :
    ∃ f inner, fragment? name = some f ∧ Expands fragment? (.ofFragment name f) f.selections inner ∧
      ∀ o ∈ inner, o ∈ os := by
  induction h with
  | nil => exact absurd hmem List.not_mem_nil
  | @spread _ _ _ f _ inner _ hf hb _ _ ih =>
    rcases List.mem_cons.mp hmem with heq | hmem
    · obtain ⟨rfl, rfl⟩ := Selection.spread.inj heq
      exact ⟨f, inner, hf, hb, fun _ => List.mem_append_left _⟩
    · obtain ⟨f, inner, hf, hb, hplaces⟩ := ih hmem
      exact ⟨f, inner, hf, hb, fun o ho => List.mem_append_right _ (hplaces o ho)⟩
  | field _ _ _ ih | inline _ _ _ ih =>
    obtain ⟨f, inner, hf, hb, hplaces⟩ := ih ((List.mem_cons.mp hmem).resolve_left nofun)
    exact ⟨f, inner, hf, hb, fun o ho => List.mem_append_right _ (hplaces o ho)⟩

namespace ArtifactContext

variable {x : ArtifactContext} {d q : Document} {e : Executable} {a b : Artifact}
  {name : String} {directives : List Directive} {p : List String}

/-- An artifact is called what its document is called, and is refetched like it. -/
theorem compile_metadata (h : x.compile d = .ok a) :
    a.name = d.name ∧ a.kind = d.kind ∧ a.refetch = d.refetch := by
  rw [compile] at h
  simp only [bind_eq_ok] at h
  obtain ⟨e, -, fs, -, h⟩ := h
  cases ht : (e.withTypenames x.config.schema).rootType? x.config.schema with
  | none => rw [ht] at h; cases h
  | some type =>
    rw [ht] at h
    simp only [bind_eq_ok, pure_eq_ok] at h
    obtain ⟨selection, -, rfl⟩ := h
    exact ⟨rfl, rfl, rfl⟩

/-- **Open paths of a document resolve in its artifact**, and nothing on them is masked. -/
theorem resolves_own (h : x.compile d = .ok a) (he : d.executable = .ok e)
    (hp : p ∈ openPathsOf e.selections) :
    a.selection.Resolves p ∧ a.selection.UnmaskedAlong p := by
  obtain ⟨main, others, rows, hdefs, hrows, hshows⟩ := compile_shows_trimmed h
  obtain ⟨e', fs, he', -, hmain, -⟩ := compiledDefinitions_eq_ok hdefs
  obtain rfl := Except.ok.inj (he.symm.trans he')
  have hopen : p ∈ openPathsOf (trimAll main.selections) := by
    rw [openPathsOf_trimAll, hmain, Executable.selections_withTypenames]
    exact (widens_injectTypenames _ _ _).openPathsOf hp
  obtain ⟨hresolves, hunmasked⟩ := hshows.of_openPath hrows hopen
  exact ⟨hresolves, hunmasked rfl⟩

/-- An open path of a fragment leads to a place wherever the fragment is spread. -/
theorem exists_of_spread (hx : NamedByKey x.fragments) (hq : x.Knows q) {main : Executable}
    {others : List Fragment} (hdefs : x.compiledDefinitions q = .ok (main, others))
    (hspread : name ∈ spreadNamesOf main.selections) {f : Fragment}
    (hf : Table.get? x.fragments name = some f) (hp : p ∈ openPathsOf f.selections) {site : Site}
    {ss : List Selection} {os : List Occurrence}
    (h : Expands (Table.get? (x.compilation q main others).trimmed.fragments) site ss os)
    (hmem : .spread name directives ∈ ss) : ∃ o ∈ os, o.path = p ∧ o.selections ≠ [] := by
  obtain ⟨g, hg, hsent⟩ := fragmentIn_of_spread hx hq hdefs hspread
  obtain rfl := Option.some.inj (hf.symm.trans hg)
  obtain ⟨f', inner, hf', hinner, hplaces⟩ := h.of_mem_spread hmem
  rw [Compilation.get?_trimmed] at hf'
  have hcompiled : Table.get? (x.compilation q main others).fragments name
      = some (f.withTypenames x.config.schema) :=
    get?_compiledFragments (compiledDefinitions_nodup hx hdefs) hsent
  obtain rfl : (f.withTypenames x.config.schema).trimmed = f' :=
    Option.some.inj ((congrArg (Option.map Fragment.trimmed) hcompiled).symm.trans hf')
  have hopen : p ∈ openPathsOf (trimAll (f.withTypenames x.config.schema).selections) := by
    rw [openPathsOf_trimAll]
    exact (widens_injectTypenames _ _ _).openPathsOf hp
  obtain ⟨o, ho, hpath, -, hne⟩ := hinner.exists_of_openPath p hopen
  exact ⟨o, hplaces o ho, hpath, hne⟩

section Query

variable (hx : NamedByKey x.fragments) {o : Operation} (ho : q.executable = .ok (.operation o))
  (hb : x.compile q = .ok b) {f : Fragment} (hf : Table.get? x.fragments name = some f)
  (hp : p ∈ openPathsOf f.selections)

include hx ho hb hf hp

/-- **Open paths of a fragment resolve in a query** that spreads it at its top. -/
theorem resolves_spread (hselections : o.selections = [.spread name directives]) :
    b.selection.Resolves p := by
  obtain ⟨main, others, rows, hdefs, hrows, hshows⟩ := compile_shows_trimmed hb
  obtain ⟨e, fs, he, -, hmain, -⟩ := compiledDefinitions_eq_ok hdefs
  obtain rfl := Except.ok.inj (ho.symm.trans he)
  have hsent : main.selections = [.spread name directives] := by
    rw [hmain, Executable.selections_withTypenames, Executable.selections, hselections]
    rfl
  have hknows : x.Knows q := fun g hg => by cases ho.symm.trans hg
  have hspread : name ∈ spreadNamesOf main.selections := hsent ▸ List.mem_singleton_self name
  have hmem : .spread name directives ∈ trimAll main.selections := by
    rw [hsent]
    exact List.mem_singleton_self _
  obtain ⟨place, hplace, rfl, hne⟩ :=
    exists_of_spread hx hknows hdefs hspread hf hp hrows.expands hmem
  exact hshows.resolves hplace hne

/-- **Open paths of a fragment resolve below the field** under which a query spreads it. -/
theorem resolves_lookup {lookup : FieldHead} (hname : lookup.name ≠ typenameField)
    (hselections : o.selections = [.field lookup [.spread name directives]]) :
    b.selection.Resolves (lookup.responseKey :: p) := by
  obtain ⟨main, others, rows, hdefs, hrows, hshows⟩ := compile_shows_trimmed hb
  obtain ⟨e, fs, he, -, hmain, -⟩ := compiledDefinitions_eq_ok hdefs
  obtain rfl := Except.ok.inj (ho.symm.trans he)
  obtain ⟨gained, hsent⟩ : ∃ gained, main.selections
      = [.field lookup (.spread name directives :: gained)] := by
    rw [hmain, Executable.selections_withTypenames, Executable.selections, hselections]
    exact ⟨_, rfl⟩
  have hknows : x.Knows q := fun g hg => by cases ho.symm.trans hg
  have hspread : name ∈ spreadNamesOf main.selections := by
    rw [hsent]
    exact List.mem_append_left _ List.mem_cons_self
  have hmem : .field lookup (.spread name directives :: trimAll gained)
      ∈ trimAll main.selections := by
    rw [hsent, trimAll, Selection.trimmed, if_neg hname]
    exact List.mem_cons_self
  obtain ⟨inner, hinner, -, hplaces⟩ := hrows.expands.of_mem_field hmem
  obtain ⟨place, hplace, rfl, hne⟩ :=
    exists_of_spread hx hknows hdefs hspread hf hp hinner List.mem_cons_self
  exact hshows.resolves (hplaces place hplace) hne

end Query

end ArtifactContext

/-- What resolves below a key resolves among the fields of the entry there. -/
theorem SelectionTree.Resolves.below {t : SelectionTree} {k : String} {p : List String}
    (h : t.Resolves (k :: p)) (hne : p ≠ []) :
    ∃ e fields, Entry.at? t [k] = some e ∧ e.fields = some fields ∧
      SelectionTree.Resolves fields p := by
  obtain ⟨last, under, hlast, hunder⟩ := h
  obtain ⟨k', p, rfl⟩ := List.exists_cons_of_ne_nil hne
  rw [Entry.at?, Option.bind_eq_some_iff] at hlast
  · obtain ⟨fields, hfields, hlast⟩ := hlast
    obtain ⟨e, he, hfields⟩ := Option.bind_eq_some_iff.mp hfields
    exact ⟨e, fields, he, hfields, last, under, hlast, hunder⟩
  · exact List.cons_ne_nil k' p

/-! ## 2. Documents -/

variable {c : Config} {d : Document}

theorem PaginatedField.path_ne_nil (p : PaginatedField) : p.path ≠ [] := by
  rw [path, Ancestor.path_concat_field]
  exact List.append_ne_nil_of_right_ne_nil _ (List.cons_ne_nil _ _)

/-- The path of a paginated field is open in what pagination leaves of a definition. -/
theorem path_mem_openPathsOf_hoisted {p : PaginatedField} {ancestors : List Ancestor}
    {ss ss' : List Selection} {state state' : PageState} (hroot : Ancestor.path ancestors = [])
    (hleaves : typenamesAreLeavesIn ss = true) (hp : p ∈ paginatedFieldsOf c ancestors ss)
    (h : paginateSelections c ancestors ss state = .ok (ss', state'))
    (f : List Directive → List Directive) :
    p.path ∈ openPathsOf (Selection.mapAllDirectives f ss') := by
  obtain ⟨q, hq, hpath⟩ := path_mem_openPathsOf hleaves hp
  rw [hpath, hroot, List.nil_append]
  exact (widens_mapAllDirectives f ss').openPathsOf ((widens_paginateSelections h).openPathsOf hq)

/-- **What is written down about refetching** a document with paginated fields: a path that is open
in its definition, and the same for the query that refetches it, which spreads it. -/
theorem refetch_of_paged {definition : Definition} (hd : d.definitions = [definition])
    (hleaves : d.typenamesAreLeaves = true) (hok : (paginateDocument c d).2.isOk = true)
    (hpaged : definition.paginatedFields c ≠ []) :
    ∃ e r, (d.paged c).executables = [e] ∧ (d.paged c).refetch = some r ∧ r.path ≠ [] ∧
      r.path ∈ openPathsOf e.selections ∧
      ∀ q ∈ d.refetchers c, ∃ f f' o used, definition = .fragment f ∧ e = .fragment f' ∧
        f'.name = f.name ∧ r.embedded = (f.refetchTarget c).embedded ∧ q.refetch = some r ∧
        q.executables = [.operation o] ∧ o.selections = (f.refetchTarget c).selections c used := by
  rcases List.eq_nil_or_concat (definition.paginatedFields c) with hp | ⟨ps, p, hp⟩
  · exact absurd hp hpaged
  rw [List.concat_eq_append] at hp
  have hmem : p ∈ definition.paginatedFields c := by
    rw [hp]
    exact List.mem_append_right _ (List.mem_singleton_self p)
  have hrun := (@paginateDocument_eq_ok c d _ _).mpr ⟨hok, rfl, rfl⟩
  have hleavesIn : typenamesAreLeavesIn definition.selections = true :=
    ArtifactContext.typenamesAreLeavesIn_of_mem hleaves (hd ▸ List.mem_singleton_self _)
  cases definition with
  | operation o =>
    obtain ⟨-, ss, state, hss, hd', hown⟩ := (paginateDocument_operation hd hp).mp hrun
    rw [hd', hown]
    exact ⟨_, _, rfl, rfl, p.path_ne_nil,
      path_mem_openPathsOf_hoisted rfl hleavesIn hmem hss _, fun q hq => absurd hq List.not_mem_nil⟩
  | fragment f =>
    obtain ⟨ss, state, hss, refetch, hrefetch, hd', hown⟩ :=
      (paginateDocument_fragment hd hp).mp hrun
    rw [hd']
    refine ⟨_, _, rfl, rfl, ?_, ?_, fun q hq => ?_⟩
    · rw [hrefetch]
      exact p.path_ne_nil
    · rw [hrefetch]
      exact path_mem_openPathsOf_hoisted rfl hleavesIn hmem hss _
    · split at hown
      · rw [hown] at hq
        exact absurd hq List.not_mem_nil
      · obtain ⟨query, hquery, hown⟩ := hown
        obtain ⟨keyVariables, -, rfl⟩ := refetchQuery_eq_ok.mp hquery
        rw [hown] at hq
        obtain rfl := List.mem_singleton.mp hq
        exact ⟨f, _, _, _, rfl, rfl, rfl, by rw [hrefetch]; rfl, rfl, rfl, rfl⟩
  | schema _ | type _ | directive _ => exact absurd rfl hpaged

/-- Without paginated fields there is nothing to refetch. -/
theorem paged_unpaginated {definition : Definition} (hd : d.definitions = [definition])
    (hok : (paginateDocument c d).2.isOk = true) (hnone : definition.paginatedFields c = []) :
    d.paged c = d ∧ d.refetchers c = [] :=
  paginateDocument_unpaginated hd hnone
    ((@paginateDocument_eq_ok c d _ _).mpr ⟨hok, rfl, rfl⟩)

theorem openPathsOf_settled {e : Executable} :
    openPathsOf e.selections ⊆ openPathsOf (e.settled c).selections := by
  have hselections : (e.settled c).selections
      = Tagging.settledAll c [e.ancestor] e.selections := by cases e <;> rfl
  rw [hselections]
  exact (widens_settledAll c _ _).openPathsOf

/-! ## 3. Runs -/

variable {documents : List Document} {artifacts : List Artifact}

namespace RunTrace

variable {tagged new : List Document} {definition : Definition} {d' : Document} {a : Artifact}
  {r : Refetch}

/-- The path resolves in the artifact of a paginated document. -/
theorem resolves_own (htrace : RunTrace c documents artifacts tagged new) (hd : d ∈ documents)
    (hdefinition : d.definitions = [definition]) (hleaves : d.typenamesAreLeaves = true)
    (hpaged : definition.paginatedFields c ≠ []) (htag : Tagged c (d.paged c) d')
    (hr : (d.paged c).refetch = some r) (ha : (runContext c documents).compile d' = .ok a) :
    a.selection.Resolves r.path ∧ a.selection.UnmaskedAlong r.path := by
  obtain ⟨e, r', hexecutables, hr', -, hopen, -⟩ :=
    refetch_of_paged hdefinition hleaves (htrace.paginated d hd) hpaged
  obtain rfl := Option.some.inj (hr'.symm.trans hr)
  have hmain : d'.executable = .ok (e.settled c) :=
    executable_eq_ok.mpr (by rw [htag.executables, hexecutables]; rfl)
  exact ArtifactContext.resolves_own ha hmain (openPathsOf_settled hopen)

/-- The path resolves where the query that refetches a fragment spreads it. -/
theorem resolves_query (htrace : RunTrace c documents artifacts tagged new)
    (hnames : ((fragmentsOf (documents.flatMap (·.definitions))).map (·.name)).Nodup)
    (hfree : ∀ f ∈ fragmentsOf (documents.flatMap (·.definitions)),
      (runRegistry c documents).operation? c f.name = none)
    (hd : d ∈ documents) (hdefinition : d.definitions = [definition])
    (hleaves : d.typenamesAreLeaves = true) (hpaged : definition.paginatedFields c ≠ [])
    {q : Document} (hq : q ∈ d.refetchers c) (htag : Tagged c q d') (hr : q.refetch = some r)
    (ha : (runContext c documents).compile d' = .ok a) :
    ∃ f, definition = .fragment f ∧
      (r.embedded = false → a.selection.Resolves r.path) ∧
      (r.embedded = true → c.lookupField f.condition ≠ typenameField →
        ∃ e fields, Entry.at? a.selection [c.lookupField f.condition] = some e ∧
          e.fields = some fields ∧ SelectionTree.Resolves fields r.path) := by
  obtain ⟨e, r', hexecutables, -, hne, hopen, hqueries⟩ :=
    refetch_of_paged hdefinition hleaves (htrace.paginated d hd) hpaged
  obtain ⟨f, f', o, used, rfl, rfl, hname, hembedded, hr', hexecutablesQ, hselections⟩ :=
    hqueries q hq
  obtain rfl := Option.some.inj (hr'.symm.trans hr)
  -- the fragment as artifacts are compiled with it
  obtain ⟨d₁, hd₁, htag₁⟩ := htrace.exists_tagged hd
  obtain ⟨g, hg, hgname⟩ : ∃ g, (Executable.fragment f').settled c = .fragment g ∧
      g.name = f'.name := ⟨_, rfl, rfl⟩
  have hmem : .fragment g ∈ d₁.executables := by
    rw [htag₁.executables, hexecutables, List.map_singleton, hg]
    exact List.mem_singleton_self _
  have hknown := htrace.get?_fragments hnames hfree hd₁ hmem
  rw [hgname, hname] at hknown
  have hsettled : r'.path ∈ openPathsOf g.selections := by
    have hopen' := openPathsOf_settled (c := c) hopen
    rwa [hg] at hopen'
  -- the query as it is compiled
  have hmain : d'.executable = .ok (.operation o) := by
    refine executable_eq_ok.mpr ?_
    rw [htag.executables, hexecutablesQ, List.map_singleton, Executable.settled,
      Executable.selections, hselections, settledAll_refetch, ← hselections]
    rfl
  have hx : NamedByKey (runContext c documents).fragments := namedByKey_fragmentTable _
  refine ⟨f, rfl, fun hspread => ?_, fun hlookup htypename => ?_⟩
  · rw [hembedded] at hspread
    rw [RefetchTarget.selections, hspread] at hselections
    exact ArtifactContext.resolves_spread hx hmain ha hknown hsettled hselections
  · rw [hembedded] at hlookup
    rw [RefetchTarget.selections, hlookup] at hselections
    exact (ArtifactContext.resolves_lookup hx hmain ha hknown hsettled htypename hselections).below
      hne

end RunTrace

/-- **Refetch paths resolve.**  In a run that succeeds over documents with one definition each, in
which names of types are leaves and fragments have names of their own, what an artifact says about
refetching comes from a document with paginated fields.  Either the artifact is that of the document
itself; then the path leads to an entry with fields, and no entry on it is masked.  Or it is that of
the query that refetches it; then the path resolves where the query spreads the fragment, unless
this is below the name of a type. -/
theorem runPipeline_refetch_resolves (h : (runPipeline c documents).result = .ok artifacts)
    (hsingle : ∀ d ∈ documents, ∃ definition, d.definitions = [definition])
    (hnames : ((fragmentsOf (documents.flatMap (·.definitions))).map (·.name)).Nodup)
    (hfree : ∀ f ∈ fragmentsOf (documents.flatMap (·.definitions)),
      (runRegistry c documents).operation? c f.name = none)
    (hleaves : ∀ d ∈ documents, d.typenamesAreLeaves = true)
    (hfresh : ∀ d ∈ documents,
      d.definitions.flatMap (·.paginatedFields c) = [] → d.refetch = none)
    {a : Artifact} (ha : a ∈ artifacts) {r : Refetch} (hr : a.refetch = some r) :
    ∃ d ∈ documents, ∃ d' ∈ (runPipeline c documents).documents,
      (runContext c documents).compile d' = .ok a ∧
      ((Tagged c (d.paged c) d' ∧ a.selection.Resolves r.path ∧
          a.selection.UnmaskedAlong r.path) ∨
        ∃ q ∈ d.refetchers c, Tagged c q d' ∧ ∃ f, d.definitions = [.fragment f] ∧
          (r.embedded = false → a.selection.Resolves r.path) ∧
          (r.embedded = true → c.lookupField f.condition ≠ typenameField →
            ∃ e fields, Entry.at? a.selection [c.lookupField f.condition] = some e ∧
              e.fields = some fields ∧ SelectionTree.Resolves fields r.path)) := by
  obtain ⟨tagged, new, htrace⟩ := runPipeline_trace h
  obtain ⟨d', hd', hcompile⟩ := exists_of_forall₂ htrace.compiled ha
  have htagged := (List.mem_filter.mp hd').1
  have hfinal := htrace.mem_final htagged
  obtain ⟨source, hsource, htag⟩ := exists_of_forall₂ htrace.settled htagged
  have hrefetch : source.refetch = some r := by
    rw [← htag.refetch, ← (ArtifactContext.compile_metadata hcompile).2.2, hr]
  rcases List.mem_append.mp hsource with hsource | hsource
  · obtain ⟨d, hd, rfl⟩ := List.mem_map.mp hsource
    obtain ⟨definition, hdefinition⟩ := hsingle d hd
    have hpaged : definition.paginatedFields c ≠ [] := fun hnone => by
      rw [(paged_unpaginated hdefinition (htrace.paginated d hd) hnone).1,
        hfresh d hd (by rw [hdefinition, List.flatMap_singleton, hnone])] at hrefetch
      exact absurd hrefetch nofun
    exact ⟨d, hd, d', hfinal, hcompile, .inl ⟨htag,
      htrace.resolves_own hd hdefinition (hleaves d hd) hpaged htag hrefetch hcompile⟩⟩
  · obtain ⟨d, hd, hq⟩ := List.mem_flatMap.mp hsource
    obtain ⟨definition, hdefinition⟩ := hsingle d hd
    have hpaged : definition.paginatedFields c ≠ [] := fun hnone => by
      rw [(paged_unpaginated hdefinition (htrace.paginated d hd) hnone).2] at hq
      exact absurd hq List.not_mem_nil
    obtain ⟨f, rfl, hresolves⟩ := htrace.resolves_query hnames hfree hd hdefinition (hleaves d hd)
      hpaged hq htag hrefetch hcompile
    exact ⟨d, hd, d', hfinal, hcompile, .inr ⟨source, hq, htag, f, hdefinition, hresolves⟩⟩

/-! ## 4. Posts that are looked up by the name of a type -/

open Sample in
/-- The query that loads more posts of a user leads to them. -/
theorem headlines_refetch_resolves :
    ∃ artifacts, (runPipeline (config nodes) headlines).result = .ok artifacts ∧
      ∃ a ∈ artifacts, a.kind = .query ∧ ∃ r, a.refetch = some r ∧
        ∃ d ∈ headlines, ∃ d' ∈ (runPipeline (config nodes) headlines).documents,
          (runContext (config nodes) headlines).compile d' = .ok a ∧
          ((Tagged (config nodes) (d.paged (config nodes)) d' ∧ a.selection.Resolves r.path ∧
              a.selection.UnmaskedAlong r.path) ∨
            ∃ q ∈ d.refetchers (config nodes), Tagged (config nodes) q d' ∧
              ∃ f, d.definitions = [.fragment f] ∧
                (r.embedded = false → a.selection.Resolves r.path) ∧
                (r.embedded = true → (config nodes).lookupField f.condition ≠ typenameField →
                  ∃ e fields,
                    Entry.at? a.selection [(config nodes).lookupField f.condition] = some e ∧
                    e.fields = some fields ∧ SelectionTree.Resolves fields r.path)) := by
  have hquery : ((runPipeline (config nodes) headlines).result.toOption.map fun artifacts =>
      artifacts.any fun a => a.kind = .query && a.refetch.isSome) = some true := by decide +kernel
  have hfree : ∀ f ∈ fragmentsOf (headlines.flatMap (·.definitions)),
      (runRegistry (config nodes) headlines).operation? (config nodes) f.name = none := by
    decide +kernel
  cases h : (runPipeline (config nodes) headlines).result with
  | error e => rw [h] at hquery; exact absurd hquery nofun
  | ok artifacts =>
    rw [h] at hquery
    obtain ⟨a, ha, hfound⟩ := List.any_eq_true.mp (Option.some.inj hquery)
    rw [Bool.and_eq_true, decide_eq_true_iff, Option.isSome_iff_exists] at hfound
    obtain ⟨hkind, r, hr⟩ := hfound
    exact ⟨artifacts, rfl, a, ha, hkind, r, hr, runPipeline_refetch_resolves h
      (by simp [headlines, userPosts, fragment, Document.ofDefinitions]) (by decide) hfree
      (by decide) (by decide) ha hr⟩

namespace Sample

/-- Users are looked up by the name of a type, of all fields. -/
def byTypename : Config :=
  { config nodes with types := [("User", { keys := none, lookupField := some typenameField })] }

end Sample

open Sample in
/-- Below the name of a type there is nothing, so the path does not resolve there. -/
theorem byTypename_refetch_unresolved :
    ∃ artifacts, (runPipeline byTypename headlines).result = .ok artifacts ∧
      (∀ d ∈ headlines, ∃ definition, d.definitions = [definition]) ∧
      ((fragmentsOf (headlines.flatMap (·.definitions))).map (·.name)).Nodup ∧
      (∀ f ∈ fragmentsOf (headlines.flatMap (·.definitions)),
        (runRegistry byTypename headlines).operation? byTypename f.name = none) ∧
      (∀ d ∈ headlines, d.typenamesAreLeaves = true) ∧ (∀ d ∈ headlines, d.refetch = none) ∧
      ∃ a ∈ artifacts, ∃ r, a.refetch = some r ∧ r.embedded = true ∧ a.kind = .query ∧
        ∃ e, Entry.at? a.selection [byTypename.lookupField "User"] = some e ∧ e.fields = none := by
  have hquery : ((runPipeline byTypename headlines).result.toOption.map fun artifacts =>
      artifacts.any fun a => a.refetch.any (·.embedded) && (a.kind = .query &&
        (Entry.at? a.selection [byTypename.lookupField "User"]).any (·.fields.isNone)))
      = some true := by decide +kernel
  cases h : (runPipeline byTypename headlines).result with
  | error e => rw [h] at hquery; exact absurd hquery nofun
  | ok artifacts =>
    rw [h] at hquery
    obtain ⟨a, ha, hfound⟩ := List.any_eq_true.mp (Option.some.inj hquery)
    rw [Bool.and_eq_true, Bool.and_eq_true, Option.any_eq_true_iff_get, Option.any_eq_true_iff_get,
      decide_eq_true_iff] at hfound
    obtain ⟨⟨hr, hembedded⟩, hkind, he, hnone⟩ := hfound
    refine ⟨artifacts, rfl, by simp [headlines, userPosts, fragment, Document.ofDefinitions],
      by decide, by decide +kernel, by decide, by decide, a, ha, _, (Option.some_get hr).symm,
      hembedded, hkind, _, (Option.some_get he).symm, Option.isNone_iff_eq_none.mp hnone⟩

end QueryCompiler
