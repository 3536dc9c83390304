import QueryCompiler.Proofs.Pagination.Agreement
import QueryCompiler.Proofs.Selection.Masked
import QueryCompiler.Proofs.Trace
/-
# A refetch query loads what its fragment describes

A paginated fragment is compiled twice: for its own artifact, and for the query that refetches it,
which spreads it.  Each time the fragments below it are found anew.  The selection of the query is
that of the fragment with all entries masked, under the field that looks up its record if there is
one (`Loads`):

* `ArtifactContext.follow_sent`: what is spread is compiled alike for all documents, up to the mask;
* `runPipeline_loads`: the artifacts of a paginated fragment and of its query.
-/
namespace QueryCompiler

/-! ## 1. Fragments below two documents -/

namespace ArtifactContext

variable {x : ArtifactContext} {d q : Document} {main main' : Executable}
  {others others' : List Fragment}

/-- The document's own fragment, if it is one, is the one that the context has under its name. -/
def Knows (x : ArtifactContext) (d : Document) : Prop :=
  ∀ f, d.executable = .ok (.fragment f) → Table.get? x.fragments f.name = some f

/-- What is sent under a name is the fragment of the context, with the names of types in it. -/
theorem fragmentIn_source (hx : NamedByKey x.fragments) (hd : x.Knows d)
    (h : x.compiledDefinitions d = .ok (main, others)) {name : String} {f : Fragment}
    (hf : fragmentIn (main.definition :: others.map .fragment) name = some f) :
    ∃ g, Table.get? x.fragments name = some g ∧ f = g.withTypenames x.config.schema := by
  obtain ⟨e, fs, he, hfs, rfl, rfl⟩ := compiledDefinitions_eq_ok h
  obtain rfl : f.name = name := by simpa using List.find?_some hf
  have hmem := List.mem_of_find?_eq_some hf
  rw [fragmentsOf_main, List.mem_append] at hmem
  rcases hmem with hmem | hmem
  · cases e with
    | operation o => exact absurd hmem List.not_mem_nil
    | fragment g =>
      obtain rfl := List.mem_singleton.mp hmem
      exact ⟨g, hd g he, rfl⟩
  · obtain ⟨g, hg, rfl⟩ := List.mem_map.mp hmem
    exact ⟨g, (referenced_closed hx hfs).source g hg, rfl⟩

/-- **Fragments that two documents are sent with** are compiled alike for both, up to the mask. -/
theorem follow_sent (hx : NamedByKey x.fragments) (hd : x.Knows d) (hq : x.Knows q)
    (hkind : d.kind ≠ .mutation) (hkind' : q.kind ≠ .mutation)
    (h : x.compiledDefinitions d = .ok (main, others))
    (h' : x.compiledDefinitions q = .ok (main', others')) {name : String}
    (hname : ∃ f, fragmentIn (main.definition :: others.map .fragment) name = some f)
    (hname' : ∃ f, fragmentIn (main'.definition :: others'.map .fragment) name = some f)
    {depth depth' : Nat} {t t' : SelectionTree}
    (ht : (x.compilation d main others).follow depth name = .ok t)
    (ht' : (x.compilation q main' others').follow depth' name = .ok t') :
    t' = SelectionTree.mask t := by
  have hnodup := compiledDefinitions_nodup hx h
  have hnodup' := compiledDefinitions_nodup hx h'
  have hlike : (x.compilation d main others).ReadsLike (x.compilation q main' others') :=
    ⟨rfl, hkind, hkind'⟩
  let names (name : String) : Prop :=
    (∃ f, fragmentIn (main.definition :: others.map .fragment) name = some f) ∧
      ∃ f, fragmentIn (main'.definition :: others'.map .fragment) name = some f
  -- under a name that is sent with both there is one fragment
  have hone : ∀ name, names name → ∃ f,
      fragmentIn (main.definition :: others.map .fragment) name = some f ∧
      fragmentIn (main'.definition :: others'.map .fragment) name = some f := by
    rintro name ⟨⟨f, hf⟩, f', hf'⟩
    obtain ⟨g, hg, rfl⟩ := fragmentIn_source hx hd h hf
    obtain ⟨g', hg', rfl⟩ := fragmentIn_source hx hq h' hf'
    obtain rfl := Option.some.inj (hg.symm.trans hg')
    exact ⟨_, hf, hf'⟩
  refine Compilation.follow_masked hlike (fun name (hname : names name) => ?_)
    (fun name (hname : names name) f hf other hother => ?_) ⟨hname, hname'⟩ ht ht'
  · obtain ⟨f, hf, hf'⟩ := hone name hname
    exact (get?_compiledFragments hnodup' hf').trans (get?_compiledFragments hnodup hf).symm
  · obtain ⟨g, hg, hg'⟩ := hone name hname
    obtain rfl : f = g := Option.some.inj (hf.symm.trans (get?_compiledFragments hnodup hg))
    exact ⟨compiledDefinitions_within hx h _ (mem_of_fragmentIn hg) other hother,
      compiledDefinitions_within hx h' _ (mem_of_fragmentIn hg') other hother⟩

/-- A document is sent with the fragments that it spreads, as the context has them. -/
theorem fragmentIn_of_spread (hx : NamedByKey x.fragments) (hq : x.Knows q)
    (h : x.compiledDefinitions q = .ok (main, others)) {name : String}
    (hspread : name ∈ spreadNamesOf main.selections) :
    ∃ g, Table.get? x.fragments name = some g ∧
      fragmentIn (main.definition :: others.map .fragment) name
        = some (g.withTypenames x.config.schema) := by
  have hmain : main.definition ∈ main.definition :: others.map .fragment := List.mem_cons_self
  obtain ⟨f, hf⟩ := compiledDefinitions_within hx h _ hmain name (by cases main <;> exact hspread)
  obtain ⟨g, hg, rfl⟩ := fragmentIn_source hx hq h hf
  exact ⟨g, hg, hf⟩

/-- **A spread fragment** is compiled as for its own artifact, up to the mask. -/
theorem follow_fragment {f : Fragment} {a : Artifact} (hx : NamedByKey x.fragments)
    (hd : x.Knows d) (hq : x.Knows q) (hkind : d.kind ≠ .mutation) (hkind' : q.kind ≠ .mutation)
    (hexecutable : d.executable = .ok (.fragment f)) (ha : x.compile d = .ok a)
    (h' : x.compiledDefinitions q = .ok (main', others'))
    (hspread : f.name ∈ spreadNamesOf main'.selections) {depth : Nat} {t : SelectionTree}
    (ht : (x.compilation q main' others').follow depth f.name = .ok t) :
    t = SelectionTree.mask a.selection := by
  obtain ⟨main, others, type, h, htype, -, hselection⟩ := compile_eq_ok ha
  obtain ⟨e, fs, he, -, hmain, -⟩ := compiledDefinitions_eq_ok h
  obtain rfl := Except.ok.inj (hexecutable.symm.trans he)
  have hnodup' := compiledDefinitions_nodup hx h'
  have hlike : (x.compilation d main others).ReadsLike (x.compilation q main' others') :=
    ⟨rfl, hkind, hkind'⟩
  -- the query is sent with the fragment, and so with all that this spreads
  obtain ⟨f', hf', hg⟩ := fragmentIn_of_spread hx hq h' hspread
  obtain rfl : f' = f := Option.some.inj (hf'.symm.trans (hd f hexecutable))
  have hbelow := compiledDefinitions_within hx h' _ (mem_of_fragmentIn hg)
  unfold Compilation.follow at ht
  rw [show Table.get? (x.compilation q main' others').fragments f'.name
    = some (f'.withTypenames x.config.schema) from get?_compiledFragments hnodup' hg] at ht
  cases depth with
  | zero => cases ht
  | succ depth =>
    subst hmain
    have hroot : x.config.schema.type? f'.condition = some type := htype
    have hforest : (x.compilation q main' others').forest
        ((x.compilation q main' others').follow depth) (x.config.schema.type? f'.condition) true
        (SelectionTree.mask []) (f'.withTypenames x.config.schema).selections = .ok t := ht
    rw [hroot] at hforest
    refine Compilation.forest_masked hlike _ (fun name hname _ _ hleft hright => ?_) hselection
      hforest
    exact follow_sent hx hd hq hkind hkind' h h'
      (compiledDefinitions_within hx h _ List.mem_cons_self name hname) (hbelow name hname) hleft
      hright

end ArtifactContext

/-! ## 2. What a refetch query selects -/

/-- The type of the field that looks up records of a type.  The name of a type is a text. -/
def Config.lookupType? (c : Config) (type : String) : Option NamedType :=
  if c.lookupField type = typenameField then none
  else (c.schema.fieldAt [.operation .query] (c.lookupField type)).bind c.schema.fieldType?

/-- What the query selects that refetches a fragment on a type, given the selection of the fragment
itself. -/
def Config.Loads (c : Config) (type : String) (own loaded : SelectionTree) : Prop :=
  if type = c.queryTypeName then loaded = SelectionTree.mask own
  else ∃ head fields, loaded = [(c.lookupField type, .node head fields)] ∧
    ∀ t, c.lookupType? type = some t → fields = some (if t.isAbstract then
        Entry.mergeInto (SelectionTree.mask own)
          [(typenameField, .node (.plain "String" typenameField false) none)]
      else SelectionTree.mask own)

/-- A selection has each key once. -/
theorem ArtifactContext.distinct_of_compile {x : ArtifactContext} {d : Document} {a : Artifact}
    (h : x.compile d = .ok a) : Entry.DistinctTree a.selection := by
  obtain ⟨main, others, type, -, htype, -, hselection⟩ := compile_eq_ok h
  obtain ⟨rows, -, hshows⟩ :=
    Compilation.compile_shows_trimmed _ (leads_rootType htype) hselection
  exact hshows.distinct

namespace ArtifactContext

variable {x : ArtifactContext} {d q : Document} {f : Fragment} {o : Operation} {a b : Artifact}
  {directives : List Directive}

theorem nil_mergeInto_mask (ha : x.compile d = .ok a) :
    Entry.mergeInto [] (SelectionTree.mask a.selection) = SelectionTree.mask a.selection :=
  Entry.nil_mergeInto (Entry.distinctTree_mapTree (distinct_of_compile ha)).nodup

/-- Where a fragment is all that is selected, the name of an abstract type is gained. -/
theorem gainedTypename_spread {s : Schema} {below : List Ancestor} {t : NamedType}
    (h : s.typeAt below = some t) (name : String) (directives : List Directive) :
    gainedTypename s below [.spread name directives]
      = if t.isAbstract then [plainField typenameField []] else [] := by
  rw [gainedTypename, h]
  simp [selectsTypename]

section Query

variable (hx : NamedByKey x.fragments) (hd : x.Knows d) (hkind : d.kind ≠ .mutation)
  (hquery : q.kind ≠ .mutation) (hexecutable : d.executable = .ok (.fragment f))
  (ho : q.executable = .ok (.operation o)) (ha : x.compile d = .ok a) (hb : x.compile q = .ok b)

include hx hd hkind hquery hexecutable ho ha hb

/-- A query that spreads the fragment at its top. -/
theorem selection_of_spread (hselections : o.selections = [.spread f.name directives]) :
    b.selection = SelectionTree.mask a.selection := by
  obtain ⟨main, others, type, h, -, -, hselection⟩ := compile_eq_ok hb
  obtain ⟨e, fs, he, -, hmain, -⟩ := compiledDefinitions_eq_ok h
  obtain rfl := Except.ok.inj (ho.symm.trans he)
  have hsent : main.selections = [.spread f.name directives] := by
    rw [hmain, Executable.selections_withTypenames, Executable.selections, hselections]
    rfl
  rw [hsent, Compilation.compile, Compilation.forest, bind_eq_ok] at hselection
  obtain ⟨t, ht, hselection⟩ := hselection
  rw [Compilation.forest] at hselection
  have hknows : x.Knows q := fun g hg => by cases ho.symm.trans hg
  obtain rfl := follow_fragment hx hd hknows hkind hquery hexecutable ha h
    (hsent ▸ List.mem_singleton_self f.name) ht
  rw [← Except.ok.inj hselection, nil_mergeInto_mask ha]

/-- A query that spreads the fragment under the field that looks up its record. -/
theorem selection_of_lookup {lookup : FieldHead} (hlabel : lookup.label = none)
    (hkindOf : o.kind = .query)
    (hselections : o.selections = [.field lookup [.spread f.name directives]]) :
    ∃ head fields, b.selection = [(lookup.name, .node head fields)] ∧
      ∀ t, lookup.name ≠ typenameField →
        (x.config.schema.fieldAt [.operation .query] lookup.name).bind x.config.schema.fieldType?
          = some t →
        fields = some (if t.isAbstract then
            Entry.mergeInto (SelectionTree.mask a.selection)
              [(typenameField, .node (.plain "String" typenameField false) none)]
          else SelectionTree.mask a.selection) := by
  obtain ⟨main, others, type, h, htype, -, hselection⟩ := compile_eq_ok hb
  obtain ⟨e, fs, he, -, hmain, -⟩ := compiledDefinitions_eq_ok h
  obtain rfl := Except.ok.inj (ho.symm.trans he)
  have hkey : lookup.responseKey = lookup.name := by rw [FieldHead.responseKey, hlabel]; rfl
  obtain ⟨below, hbelow⟩ : ∃ below, below = [Ancestor.operation .query, .field lookup] := ⟨_, rfl⟩
  have hsent : main.selections = [.field lookup (.spread f.name directives
      :: gainedTypename x.config.schema below [.spread f.name directives])] := by
    rw [hmain, Executable.selections_withTypenames, Executable.selections, hselections, hbelow,
      Executable.ancestor, hkindOf]
    rfl
  rw [hsent, Compilation.compile, Compilation.forest, bind_eq_ok] at hselection
  obtain ⟨entries, hentries, hselection⟩ := hselection
  rw [Compilation.forest, Except.ok.injEq] at hselection
  rw [Compilation.tree, hkey] at hentries
  by_cases hname : lookup.name = typenameField
  · rw [if_pos hname, Except.ok.injEq] at hentries
    subst hentries
    exact ⟨_, _, hselection.symm, fun _ hne => absurd hname hne⟩
  · rw [if_neg hname] at hentries
    simp only [bind_eq_ok, pure_eq_ok] at hentries
    obtain ⟨definition, hdefinition, key, -, tree, htree, head, -, rfl⟩ := hentries
    refine ⟨head, some tree, hselection.symm, fun t _ ht => congrArg some ?_⟩
    have hknows : x.Knows q := fun g hg => by cases ho.symm.trans hg
    have hancestor : main.ancestor = .operation .query := by
      rw [hmain, Executable.ancestor_withTypenames, Executable.ancestor, hkindOf]
    have hroot : x.config.schema.Leads [.operation .query] (some type) :=
      hancestor ▸ leads_rootType htype
    have hfield := Compilation.definition_eq_ok hdefinition
    rw [Schema.fieldAt, hroot.typeAt, hfield, Option.bind_some] at ht
    have htypeAt : x.config.schema.typeAt below = some t := by
      rw [hbelow, ← ht]
      exact (hroot.field hfield).typeAt
    have hspread : f.name ∈ spreadNamesOf main.selections := by
      rw [hsent]
      exact List.mem_append_left _ List.mem_cons_self
    rw [Compilation.forest, bind_eq_ok, gainedTypename_spread htypeAt] at htree
    obtain ⟨spread, hspreads, htree⟩ := htree
    obtain rfl := follow_fragment hx hd hknows hkind hquery hexecutable ha h hspread hspreads
    rw [nil_mergeInto_mask ha] at htree
    split at htree
    · rename_i habstract
      rw [if_pos habstract]
      exact (Except.ok.inj htree).symm
    · rename_i hconcrete
      rw [if_neg hconcrete]
      exact (Except.ok.inj htree).symm

end Query

end ArtifactContext

/-! ## 3. Runs -/

variable {c : Config} {documents : List Document} {artifacts : List Artifact}

/-- The list pass finds nothing in a query for refetching. -/
theorem settledAll_refetch (ancestors : List Ancestor) (target : RefetchTarget)
    (used : List PageArgument) : Tagging.settledAll c ancestors (target.selections c used)
      = target.selections c used := by
  rw [RefetchTarget.selections]
  split
  · simp [Tagging.settledAll, Tagging.settled, Tagging.settledHead, Tagging.gains, hasDirective,
      directive?]
  · rfl

/-- The query that refetches a fragment selects what it loads. -/
theorem loads_of_compile {x : ArtifactContext} {d q : Document} {f : Fragment} {o : Operation}
    {a b : Artifact} {used : List PageArgument} {type : String} (hschema : x.config.schema = c.schema)
    (hx : NamedByKey x.fragments) (hd : x.Knows d) (hkind : d.kind ≠ .mutation)
    (hquery : q.kind ≠ .mutation) (hexecutable : d.executable = .ok (.fragment f))
    (ho : q.executable = .ok (.operation o)) (ha : x.compile d = .ok a) (hb : x.compile q = .ok b)
    (hkindOf : o.kind = .query) {target : RefetchTarget} (hfragment : target.fragment = f.name)
    (htype : target.type = type) (hembedded : target.embedded = decide (type ≠ c.queryTypeName))
    (hselections : o.selections = target.selections c used) :
    c.Loads type a.selection b.selection := by
  rw [RefetchTarget.selections, hfragment, htype, hembedded] at hselections
  rw [Config.Loads]
  by_cases hroot : type = c.queryTypeName
  · rw [if_pos hroot]
    rw [if_neg (by simpa using hroot)] at hselections
    exact ArtifactContext.selection_of_spread hx hd hkind hquery hexecutable ho ha hb hselections
  · rw [if_neg hroot]
    rw [if_pos (by simpa using hroot)] at hselections
    obtain ⟨head, fields, hselection, hfields⟩ := ArtifactContext.selection_of_lookup hx hd hkind
      hquery hexecutable ho ha hb rfl hkindOf hselections
    refine ⟨head, fields, hselection, fun t ht => ?_⟩
    rw [Config.lookupType?] at ht
    split at ht
    · cases ht
    · rename_i hname
      exact hfields t hname (hschema ▸ ht)

/-- What pagination makes of a fragment with paginated fields, and of the query that refetches it. -/
theorem refetchers_of_fragment {d : Document} {f : Fragment}
    (hdefinition : d.definitions = [.fragment f])
    (hpaged : (Definition.fragment f).paginatedFields c ≠ []) (hnamed : f.condition ≠ "")
    (hok : (paginateDocument c d).2.isOk = true) :
    ∃ q f' o used, paginateDocument c d = (d.paged c, .ok [q]) ∧
      (d.paged c).executables = [.fragment f'] ∧ f'.name = f.name ∧
      (d.paged c).kind = d.kind ∧ (d.paged c).generate = d.generate ∧
      q.executables = [.operation o] ∧ o.name = some (c.paginationQueryName f.name) ∧
      o.kind = .query ∧ o.selections = (f.refetchTarget c).selections c used ∧
      q.kind = .query ∧ q.generate = true := by
  rcases List.eq_nil_or_concat ((Definition.fragment f).paginatedFields c) with hp | ⟨ps, p, hp⟩
  · exact absurd hp hpaged
  · rw [List.concat_eq_append] at hp
    have hrun := (@paginateDocument_eq_ok c d _ _).mpr ⟨hok, rfl, rfl⟩
    obtain ⟨ss, state, -, refetch, -, hd', hown⟩ :=
      (paginateDocument_fragment hdefinition hp).mp hrun
    rw [if_neg fun he => hnamed (String.isEmpty_iff.mp he)] at hown
    obtain ⟨query, hquery, hown⟩ := hown
    obtain ⟨keyVariables, -, rfl⟩ := refetchQuery_eq_ok.mp hquery
    rw [hown] at hrun
    refine ⟨_, hoistedFragment c state.flags f ss, _, state.flags.enabled, hrun, ?_, rfl, ?_, ?_,
      rfl, rfl, rfl, rfl, rfl, rfl⟩
    · rw [hd']
      rfl
    · rw [hd']
      rfl
    · rw [hd']
      rfl

/-- **A refetch query loads what its fragment describes.**  In a run that succeeds over documents
whose fragments have names of their own, a paginated fragment that wants an artifact gets one, and
so does the query that refetches it; and the query selects what the fragment selects, masked.
The condition of a fragment is a name, and no document of a fragment is a mutation. -/
theorem runPipeline_loads (h : (runPipeline c documents).result = .ok artifacts)
    (hnames : ((fragmentsOf (documents.flatMap (·.definitions))).map (·.name)).Nodup)
    (hfree : ∀ f ∈ fragmentsOf (documents.flatMap (·.definitions)),
      (runRegistry c documents).operation? c f.name = none)
    {d : Document} (hd : d ∈ documents) {f : Fragment} (hdefinition : d.definitions = [.fragment f])
    (hpaged : (Definition.fragment f).paginatedFields c ≠ []) (hnamed : f.condition ≠ "")
    (hkind : d.kind ≠ .mutation) (hgenerate : d.generate = true) :
    ∃ q f' o, paginateDocument c d = (d.paged c, .ok [q]) ∧
      ∃ d' ∈ (runPipeline c documents).documents, ∃ q' ∈ (runPipeline c documents).documents,
        Tagged c (d.paged c) d' ∧ d'.executables = [.fragment f'] ∧ f'.name = f.name ∧
        Tagged c q q' ∧ q'.executables = [.operation o] ∧
        o.name = some (c.paginationQueryName f.name) ∧
        ∃ a ∈ artifacts, ∃ b ∈ artifacts, (runContext c documents).compile d' = .ok a ∧
          (runContext c documents).compile q' = .ok b ∧
          c.Loads f.condition a.selection b.selection := by
  obtain ⟨tagged, new, htrace⟩ := runPipeline_trace h
  obtain ⟨q, f₁, o, used, hrun, hexecutables, hname, hkindD, hgenerateD, hexecutablesQ, hnameQ,
    hkindO, hselections, hkindQ, hgenerateQ⟩ :=
    refetchers_of_fragment hdefinition hpaged hnamed (htrace.paginated d hd)
  have hown : d.refetchers c = [q] := ((paginateDocument_eq_ok.mp hrun).2.2).symm
  -- the two documents after the list pass
  obtain ⟨d', hd', htag⟩ := htrace.exists_tagged hd
  obtain ⟨q', hq', htagQ⟩ :=
    htrace.exists_tagged_refetcher hd (hown ▸ List.mem_singleton_self q)
  have hexecutablesD' := htag.executables
  rw [hexecutables, List.map_singleton] at hexecutablesD'
  have hexecutablesQ' := htagQ.executables
  rw [hexecutablesQ, List.map_singleton] at hexecutablesQ'
  have hsame : (Executable.operation o).settled c = .operation o := by
    rw [Executable.settled, Executable.selections, hselections, settledAll_refetch, ← hselections]
    rfl
  rw [hsame] at hexecutablesQ'
  -- their artifacts
  obtain ⟨a, ha, hcompile⟩ :=
    htrace.exists_artifact hd' (htag.generate.trans (hgenerateD.trans hgenerate))
  obtain ⟨b, hb, hcompileQ⟩ := htrace.exists_artifact hq' (htagQ.generate.trans hgenerateQ)
  have hmain : d'.executable = .ok _ :=
    executable_eq_ok.mpr (by rw [hexecutablesD', List.head?_cons])
  have hmainQ : q'.executable = .ok (.operation o) :=
    executable_eq_ok.mpr (by rw [hexecutablesQ', List.head?_cons])
  have hknows : (runContext c documents).Knows d' := fun g hg =>
    htrace.get?_fragments hnames hfree hd' (Executable.mem_executables hg)
  have hquery : q'.kind ≠ .mutation := by
    rw [htagQ.kind, hkindQ]
    decide
  have hloads : c.Loads f.condition a.selection b.selection :=
    loads_of_compile rfl (namedByKey_fragmentTable _) hknows
      ((htag.kind.trans hkindD).trans_ne hkind) hquery hmain hmainQ hcompile hcompileQ hkindO
      hname.symm rfl rfl hselections
  exact ⟨q, _, o, hrun, d', htrace.mem_final hd', q', htrace.mem_final hq', htag, hexecutablesD',
    hname, htagQ, hexecutablesQ', hnameQ, a, ha, b, hb, hcompile, hcompileQ, hloads⟩

/-! ## 4. The posts of a user -/

namespace Sample

/-- Users are looked up as records of any type, and their posts page by position. -/
def nodes : Schema :=
  { types := [.scalar "String", .scalar "Int", .scalar "ID",
      .interface "Node" [] [⟨"id", some [], .nonNull (.named "ID")⟩],
      .object "User" ["Node"] [⟨"id", some [], .nonNull (.named "ID")⟩,
        ⟨"posts", some [("limit", .named "Int"), ("offset", .named "Int")],
          .list (.named "Post")⟩],
      .object "Post" [] [⟨"id", some [], .named "ID"⟩, ⟨"title", some [], .named "String"⟩],
      .object "Query" [] [⟨"node", some [("id", .nonNull (.named "ID"))], .named "Node"⟩]]
    query := some "Query", mutation := none, subscription := none }

def userPosts : Document :=
  fragment "UserPosts" "User" [
    .field (pagedHead "posts" [⟨"limit", .int "2"⟩]) [plainField "id" [], .spread "Headline" []]]

def headlines : List Document :=
  [userPosts, fragment "Headline" "Post" [plainField "title" []]]

end Sample

open Sample in
theorem userPosts_loads :
    ∃ artifacts, (runPipeline (config nodes) headlines).result = .ok artifacts ∧
      ∃ q f' o, paginateDocument (config nodes) userPosts
          = (userPosts.paged (config nodes), .ok [q]) ∧
        ∃ d' ∈ (runPipeline (config nodes) headlines).documents,
        ∃ q' ∈ (runPipeline (config nodes) headlines).documents,
          Tagged (config nodes) (userPosts.paged (config nodes)) d' ∧
          d'.executables = [.fragment f'] ∧ f'.name = "UserPosts" ∧
          Tagged (config nodes) q q' ∧ q'.executables = [.operation o] ∧
          o.name = some "UserPosts_Pagination_Query" ∧
          ∃ a ∈ artifacts, ∃ b ∈ artifacts,
            (runContext (config nodes) headlines).compile d' = .ok a ∧
            (runContext (config nodes) headlines).compile q' = .ok b ∧
            (config nodes).Loads "User" a.selection b.selection := by
  have hok : (runPipeline (config nodes) headlines).result.isOk = true := by decide +kernel
  have hfree : ∀ f ∈ fragmentsOf (headlines.flatMap (·.definitions)),
      (runRegistry (config nodes) headlines).operation? (config nodes) f.name = none := by
    decide +kernel
  cases h : (runPipeline (config nodes) headlines).result with
  | error e => rw [h] at hok; exact absurd hok nofun
  | ok artifacts =>
    exact ⟨artifacts, rfl, runPipeline_loads h (by decide) hfree List.mem_cons_self rfl nofun
      (by decide) nofun rfl⟩

end QueryCompiler
