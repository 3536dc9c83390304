import QueryCompiler.Proofs.Connection
import QueryCompiler.Proofs.Pagination.Hoisting
/-
# What a run makes of each document

The passes go through the documents one by one.  Where a run succeeds, every document has become
what the passes make of it alone, and the documents that were added come behind:

* `paginate_eq_ok`: the pagination pass, document by document;
* `Tagged`: what the list pass leaves of a document;
* `runPipeline_trace`: the documents and the artifacts of a run;
* `RunTrace.get?_fragments`: under the name of a fragment that was not generated, artifacts are
  compiled with this fragment.
-/
namespace QueryCompiler

variable {c : Config}

/-! ## 1. The pagination pass -/

namespace Document

/-- A document after the pagination pass. -/
def paged (c : Config) (d : Document) : Document := (paginateDocument c d).1

/-- The queries that refetch a document. -/
def refetchers (c : Config) (d : Document) : List Document :=
  (paginateDocument c d).2.toOption.getD []

end Document

/-- The documents after the pagination pass, and behind them the queries that refetch them. -/
def pagedDocuments (c : Config) (documents : List Document) : List Document :=
  documents.map (·.paged c) ++ documents.flatMap (·.refetchers c)

theorem paginateDocument_eq_ok {d d' : Document} {own : List Document} :
    paginateDocument c d = (d', .ok own) ↔ (paginateDocument c d).2.isOk = true ∧
      d' = d.paged c ∧ own = d.refetchers c := by
  rw [Document.paged, Document.refetchers]
  rcases paginateDocument c d with ⟨paged, e | others⟩
  · exact ⟨fun h => absurd (Prod.mk.inj h).2 error_ne_ok, fun h => absurd h.1 Bool.false_ne_true⟩
  · constructor
    · intro h
      obtain ⟨rfl, hown⟩ := Prod.mk.inj h
      exact ⟨rfl, rfl, (Except.ok.inj hown).symm⟩
    · rintro ⟨-, rfl, rfl⟩
      rfl

theorem paginateEach_eq_ok : ∀ {documents documents' new : List Document},
    paginateEach c documents = (documents', .ok new) ↔
      (∀ d ∈ documents, (paginateDocument c d).2.isOk = true) ∧
        documents' = documents.map (·.paged c) ∧ new = documents.flatMap (·.refetchers c)
  | [], documents', new => by
    constructor
    · intro h
      obtain ⟨rfl, hnew⟩ := Prod.mk.inj h
      exact ⟨fun _ hd => absurd hd List.not_mem_nil, rfl, (Except.ok.inj hnew).symm⟩
    · rintro ⟨-, rfl, rfl⟩
      rfl
  | d :: documents, documents', new => by
    rw [paginateEach, List.forall_mem_cons, List.map_cons, List.flatMap_cons]
    rcases hd : paginateDocument c d with ⟨d', e | own⟩
    · exact ⟨fun h => absurd (Prod.mk.inj h).2 error_ne_ok, fun h => absurd h.1.1 Bool.false_ne_true⟩
    · obtain ⟨-, rfl, rfl⟩ := paginateDocument_eq_ok.mp hd
      rcases hrest : paginateEach c documents with ⟨rest, e | others⟩
      · constructor
        · exact fun h => absurd (Prod.mk.inj h).2 error_ne_ok
        · rintro ⟨⟨-, hall⟩, -, -⟩
          have hok := (@paginateEach_eq_ok documents _ _).mpr ⟨hall, rfl, rfl⟩
          exact absurd (Prod.mk.inj (hrest.symm.trans hok)).2 error_ne_ok
      · obtain ⟨hall, rfl, rfl⟩ := paginateEach_eq_ok.mp hrest
        constructor
        · intro h
          obtain ⟨rfl, hnew⟩ := Prod.mk.inj h
          exact ⟨⟨rfl, hall⟩, rfl, (Except.ok.inj hnew).symm⟩
        · rintro ⟨-, rfl, rfl⟩
          rfl

/-- **The pagination pass, document by document.** -/
theorem paginate_eq_ok {documents documents' new : List Document} :
    paginate c documents = (documents', .ok new) ↔
      (∀ d ∈ documents, (paginateDocument c d).2.isOk = true) ∧
        documents' = pagedDocuments c documents ∧
        new = documents.flatMap (·.refetchers c) := by
  rw [paginate]
  rcases hpaged : paginateEach c documents with ⟨paged, e | added⟩
  · constructor
    · exact fun h => absurd (Prod.mk.inj h).2 error_ne_ok
    · rintro ⟨hall, -, -⟩
      have hok := (@paginateEach_eq_ok c documents _ _).mpr ⟨hall, rfl, rfl⟩
      exact absurd (Prod.mk.inj (hpaged.symm.trans hok)).2 error_ne_ok
  · obtain ⟨hall, rfl, rfl⟩ := paginateEach_eq_ok.mp hpaged
    constructor
    · intro h
      obtain ⟨rfl, hnew⟩ := Prod.mk.inj h
      exact ⟨hall, rfl, (Except.ok.inj hnew).symm⟩
    · rintro ⟨-, rfl, rfl⟩
      rfl

/-! ## 2. The list pass -/

/-- A document as the list pass leaves it. -/
structure Tagged (c : Config) (d d' : Document) : Prop where
  executables : d'.executables = d.executables.map (·.settled c)
  kind : d'.kind = d.kind
  name : d'.name = d.name
  generate : d'.generate = d.generate
  refetch : d'.refetch = d.refetch

theorem tagDocument_tagged {st st' : TagState} {d d' : Document} {r : Registry}
    (h : tagDocument c st d = (.ok d', st')) (hr : Tagging.LeadsTo st' r true) :
    Tagging.LeadsTo st r true ∧ Tagged c d d' := by
  obtain ⟨hst, hsettles⟩ := (tagDocument_settles d.marksIn_true h).2 r hr
  have hkept : d'.kind = d.kind ∧ d'.name = d.name ∧ d'.generate = d.generate ∧
      d'.refetch = d.refetch := by
    rw [tagDocument] at h
    split at h
    · obtain rfl := Except.ok.inj (Prod.mk.inj h).1
      split <;> exact ⟨rfl, rfl, rfl, rfl⟩
    · exact absurd (Prod.mk.inj h).1 error_ne_ok
  obtain ⟨hkind, hname, hgenerate, hrefetch⟩ := hkept
  exact ⟨hst, hsettles.executables, hkind, hname, hgenerate, hrefetch⟩

theorem tagDocuments_tagged : ∀ {documents documents' : List Document} {st st' : TagState}
    {r : Registry}, tagDocuments c st documents = (documents', st', .ok ()) →
      Tagging.LeadsTo st' r true →
        Tagging.LeadsTo st r true ∧ List.Forall₂ (Tagged c) documents documents'
  | [], documents', st, st', r, h, hr => by
    obtain ⟨rfl, hst⟩ := Prod.mk.inj h
    obtain ⟨rfl, -⟩ := Prod.mk.inj hst
    exact ⟨hr, .nil⟩
  | d :: documents, documents', st, st', r, h, hr => by
    rw [tagDocuments] at h
    split at h
    · exact absurd (Prod.mk.inj (Prod.mk.inj h).2).2 error_ne_ok
    · rename_i d' st₁ hfirst
      rcases hrest : tagDocuments c st₁ documents with ⟨rest, st₂, result⟩
      rw [hrest] at h
      obtain ⟨rfl, hst⟩ := Prod.mk.inj h
      obtain ⟨rfl, rfl⟩ := Prod.mk.inj hst
      obtain ⟨hr₁, hall⟩ := tagDocuments_tagged hrest hr
      obtain ⟨hr₀, htagged⟩ := tagDocument_tagged hfirst hr₁
      exact ⟨hr₀, .cons htagged hall⟩

/-- A document is compiled from the first of its definitions that selects something. -/
theorem executable_eq_ok {d : Document} {e : Executable} :
    d.executable = .ok e ↔ d.executables.head? = some e := by
  rw [Document.executable, Document.executables, List.head?_filterMap]
  cases d.definitions.findSome? Executable.ofDefinition? with
  | none => exact iff_of_false error_ne_ok (Option.some_ne_none e).symm
  | some e' =>
    exact ⟨fun h => congrArg some (Except.ok.inj h), fun h => congrArg _ (Option.some.inj h)⟩

/-! ## 3. Names of fragments -/

/-- The name by which a definition can be spread. -/
def Definition.fragmentName? : Definition → Option String
  | .fragment f => some f.name
  | _ => none

/-- The names of the fragments of a document. -/
def Document.fragmentNames (d : Document) : List String :=
  d.definitions.filterMap Definition.fragmentName?

theorem names_fragmentsOf_flatMap (documents : List Document) :
    (fragmentsOf (documents.flatMap (·.definitions))).map (·.name)
      = documents.flatMap (·.fragmentNames) := by
  have hone : ∀ definitions : List Definition, (fragmentsOf definitions).map (·.name)
      = definitions.filterMap Definition.fragmentName? := fun definitions => by
    rw [fragmentsOf, List.map_filterMap]
    refine List.filterMap_congr fun d _ => ?_
    cases d <;> rfl
  rw [hone, List.filterMap_flatMap]
  rfl

/-- Only the definitions that select something have such names. -/
theorem fragmentNames_eq (d : Document) :
    d.fragmentNames = d.executables.filterMap Executable.fragmentName? := by
  rw [Document.fragmentNames, Document.executables, List.filterMap_filterMap]
  refine List.filterMap_congr fun d _ => ?_
  cases d <;> rfl

/-- The list pass renames no fragment. -/
theorem Tagged.fragmentNames {d d' : Document} (h : Tagged c d d') :
    d'.fragmentNames = d.fragmentNames := by
  rw [fragmentNames_eq, fragmentNames_eq, h.executables, List.filterMap_map]
  refine List.filterMap_congr fun e _ => ?_
  cases e <;> rfl

theorem fragmentName?_paginateDefinition {definition definition' : Definition}
    {state state' : PageState}
    (h : paginateDefinition c state definition = .ok (definition', state')) :
    definition'.fragmentName? = definition.fragmentName? := by
  cases definition with
  | operation o =>
    simp only [paginateDefinition, bind_eq_ok, pure_eq_ok, Prod.mk.injEq, Prod.exists] at h
    obtain ⟨_, _, -, rfl, -⟩ := h
    rfl
  | fragment f =>
    simp only [paginateDefinition, bind_eq_ok, pure_eq_ok, Prod.mk.injEq, Prod.exists] at h
    obtain ⟨_, _, -, rfl, -⟩ := h
    rfl
  | schema _ | type _ | directive _ =>
    obtain ⟨rfl, -⟩ := Prod.mk.inj (Except.ok.inj h)
    rfl

theorem fragmentName?_hoistDefinition {flags : Flags} {definition hoisted : Definition}
    (h : hoistDefinition c flags definition = .ok hoisted) :
    hoisted.fragmentName? = definition.fragmentName? := by
  cases definition with
  | operation o =>
    rw [hoistDefinition] at h
    split at h
    · rw [← Except.ok.inj h]
      rfl
    · exact absurd h error_ne_ok
  | fragment f | schema _ | type _ | directive _ =>
    rw [← Except.ok.inj h]
    rfl

theorem fragmentNames_paginateDefinitions : ∀ {definitions paged : List Definition}
    {state state' : PageState}, paginateDefinitions c state definitions = .ok (paged, state') →
      paged.filterMap Definition.fragmentName? = definitions.filterMap Definition.fragmentName?
  | [], paged, state, state', h => by
    rw [paginateDefinitions, pure_eq_ok] at h
    rw [← (Prod.mk.inj h).1]
  | definition :: definitions, paged, state, state', h => by
    rw [paginateDefinitions] at h
    simp only [bind_eq_ok, pure_eq_ok, Prod.mk.injEq, Prod.exists] at h
    obtain ⟨first, _, hfirst, rest, _, hrest, rfl, rfl⟩ := h
    rw [List.filterMap_cons, List.filterMap_cons, fragmentName?_paginateDefinition hfirst,
      fragmentNames_paginateDefinitions hrest]

theorem fragmentNames_mapM_hoistDefinition {flags : Flags} {definitions hoisted : List Definition}
    (h : List.Forall₂ (fun d d' => hoistDefinition c flags d = .ok d') definitions hoisted) :
    hoisted.filterMap Definition.fragmentName? = definitions.filterMap Definition.fragmentName? := by
  induction h with
  | nil => rfl
  | cons hfirst _ ih =>
    rw [List.filterMap_cons, List.filterMap_cons, fragmentName?_hoistDefinition hfirst, ih]

/-- Pagination renames no fragment, and the queries that it adds are none. -/
theorem fragmentNames_paginateDocument {d d' : Document} {own : List Document}
    (h : paginateDocument c d = (d', .ok own)) :
    d'.fragmentNames = d.fragmentNames ∧ ∀ q ∈ own, q.fragmentNames = [] := by
  rw [paginateDocument] at h
  split at h
  · exact absurd (Prod.mk.inj h).2 error_ne_ok
  · rename_i definitions state hpaged
    split at h
    · obtain ⟨rfl, hown⟩ := Prod.mk.inj h
      obtain rfl := Except.ok.inj hown
      exact ⟨rfl, fun _ hq => absurd hq List.not_mem_nil⟩
    · dsimp only at h
      split at h
      · exact absurd (Prod.mk.inj h).2 error_ne_ok
      · rename_i hoisted hhoist
        have hnames := (fragmentNames_mapM_hoistDefinition (mapM_eq_ok.mp hhoist)).trans
          (fragmentNames_paginateDefinitions hpaged)
        split at h
        · obtain ⟨rfl, hown⟩ := Prod.mk.inj h
          obtain rfl := Except.ok.inj hown
          exact ⟨hnames, fun _ hq => absurd hq List.not_mem_nil⟩
        · split at h
          · exact absurd (Prod.mk.inj h).2 error_ne_ok
          · rename_i query hquery
            obtain ⟨rfl, hown⟩ := Prod.mk.inj h
            obtain rfl := Except.ok.inj hown
            refine ⟨hnames, List.forall_mem_singleton.mpr ?_⟩
            obtain ⟨_, -, rfl⟩ := refetchQuery_eq_ok.mp hquery
            rfl

/-- Pagination adds no fragments. -/
theorem fragmentNames_pagedDocuments {documents : List Document}
    (h : ∀ d ∈ documents, (paginateDocument c d).2.isOk = true) :
    (pagedDocuments c documents).flatMap (·.fragmentNames)
      = documents.flatMap (·.fragmentNames) := by
  have hone : ∀ d ∈ documents, (d.paged c).fragmentNames = d.fragmentNames ∧
      (d.refetchers c).flatMap (·.fragmentNames) = [] := fun d hd => by
    obtain ⟨hnames, hown⟩ :=
      fragmentNames_paginateDocument (paginateDocument_eq_ok.mpr ⟨h d hd, rfl, rfl⟩)
    exact ⟨hnames, List.flatMap_eq_nil_iff.mpr hown⟩
  rw [pagedDocuments, List.flatMap_append, List.flatMap_map, List.flatMap_assoc,
    List.flatMap_congr fun d hd => (hone d hd).1, List.flatMap_congr fun d hd => (hone d hd).2]
  simp

/-- With each name once, a fragment is found under its name. -/
theorem get?_fragmentTable_of_nodup {documents : List Document}
    (hnames : (documents.flatMap (·.fragmentNames)).Nodup) {d : Document} (hd : d ∈ documents)
    {f : Fragment} (hf : .fragment f ∈ d.executables) :
    Table.get? (fragmentTable documents) f.name = some f := by
  have hkeys : Table.keys ((fragmentsOf (documents.flatMap (·.definitions))).map
      fun f => (f.name, f)) = documents.flatMap (·.fragmentNames) := by
    rw [← names_fragmentsOf_flatMap, Table.keys, List.map_map]
    rfl
  obtain ⟨definition, hdefinition, hofdef⟩ := List.mem_filterMap.mp hf
  obtain rfl : definition = .fragment f := by
    cases definition with
    | fragment g =>
      exact congrArg Definition.fragment (Executable.fragment.inj (Option.some.inj hofdef))
    | operation _ | schema _ | type _ | directive _ => cases hofdef
  rw [fragmentTable, Table.ofRows_of_nodup (hkeys ▸ hnames)]
  refine Table.get?_of_mem (hkeys ▸ hnames) (List.mem_map.mpr ⟨f, ?_, rfl⟩)
  exact List.mem_filterMap.mpr ⟨_, List.mem_flatMap.mpr ⟨d, hd, hdefinition⟩, rfl⟩

theorem flatMap_fragmentNames_tagged {documents tagged : List Document}
    (h : List.Forall₂ (Tagged c) documents tagged) :
    tagged.flatMap (·.fragmentNames) = documents.flatMap (·.fragmentNames) := by
  induction h with
  | nil => rfl
  | cons hd _ ih => rw [List.flatMap_cons, List.flatMap_cons, hd.fragmentNames, ih]

/-! ## 4. Runs -/

variable {documents : List Document} {artifacts : List Artifact}

/-- A run succeeds when all its passes do. -/
theorem runPipeline_result : (runPipeline c documents).result = .ok artifacts ↔
    ∃ paged refetched new, paginate c documents = (paged, .ok refetched) ∧
      (addListFragments c [] paged).result = .ok new ∧
      ((runPipeline c documents).documents.filter (·.generate)).mapM
        (runContext c documents).compile = .ok artifacts := by
  rw [runContext, runRegistry, runPipeline]
  rcases paginate c documents with ⟨paged, e | refetched⟩
  · refine iff_of_false error_ne_ok ?_
    rintro ⟨_, _, _, h, -⟩
    exact absurd (Prod.mk.inj h).2 error_ne_ok
  · constructor
    · intro h
      obtain ⟨new, hnew, hartifacts⟩ := bind_eq_ok.mp h
      exact ⟨paged, refetched, new, rfl, hnew, hartifacts⟩
    · rintro ⟨_, _, new, hpaged, hnew, hartifacts⟩
      obtain ⟨rfl, -⟩ := Prod.mk.inj hpaged
      exact bind_eq_ok.mpr ⟨new, hnew, hartifacts⟩

/-- A run that succeeds, document by document: `tagged` is what the passes leave of the documents
and of those that pagination adds, and `new` is what is generated for lists. -/
structure RunTrace (c : Config) (documents : List Document) (artifacts : List Artifact)
    (tagged new : List Document) : Prop where
  paginated : ∀ d ∈ documents, (paginateDocument c d).2.isOk = true
  final : (runPipeline c documents).documents = tagged ++ new
  settled : List.Forall₂ (Tagged c) (pagedDocuments c documents) tagged
  generated : ∀ name, name ∈ new.flatMap (·.fragmentNames) ↔
    ((runRegistry c documents).operation? c name).isSome = true
  silent : ∀ d ∈ new, d.generate = false
  compiled : List.Forall₂ (fun d a => (runContext c documents).compile d = .ok a)
    (tagged.filter (·.generate)) artifacts

/-- **A run that succeeds goes through the documents one by one.** -/
theorem runPipeline_trace (h : (runPipeline c documents).result = .ok artifacts) :
    ∃ tagged new, RunTrace c documents artifacts tagged new := by
  obtain ⟨paged, refetched, new, hpaged, hnew, hfinal, hregistry, -⟩ := runPipeline_eq_ok h
  obtain ⟨-, -, -, -, -, hartifacts⟩ := runPipeline_result.mp h
  obtain ⟨tagged, st, htag, herrors, hst, hafter, hgenerated⟩ := addListFragments_eq_ok hnew
  obtain ⟨hpaginated, rfl, rfl⟩ := paginate_eq_ok.mp hpaged
  have hdocuments := hfinal.trans hafter
  have hend : Tagging.LeadsTo st st.registry true := ⟨herrors, fun _ _ hl => hl, fun _ => rfl⟩
  have hmarks : RegistryMarks c (fun _ => True) st.registry := fun _ _ =>
    everyIn_of_forall (fun _ _ _ _ _ _ _ _ => trivial) _ _
  have hsilent := hgenerated.generate_eq_false
  refine ⟨tagged, new, hpaginated, hdocuments, (tagDocuments_tagged htag hend).2, fun name => ?_,
    hsilent, ?_⟩
  · rw [← names_fragmentsOf_flatMap, hregistry, hst]
    exact (fragmentsOf_generated hmarks hgenerated).1 name
  · have hnone : new.filter (·.generate) = [] :=
      List.filter_eq_nil_iff.mpr fun d hd => Bool.eq_false_iff.mp (hsilent d hd)
    rw [hdocuments, List.filter_append, hnone, List.append_nil] at hartifacts
    exact mapM_eq_ok.mp hartifacts

namespace RunTrace

variable {tagged new : List Document}

/-- A document after the list pass. -/
theorem exists_tagged (h : RunTrace c documents artifacts tagged new) {d : Document}
    (hd : d ∈ documents) : ∃ d' ∈ tagged, Tagged c (d.paged c) d' :=
  exists_of_forall₂ h.settled.flip (List.mem_append_left _ (List.mem_map_of_mem hd))

/-- A query that refetches a document after the list pass. -/
theorem exists_tagged_refetcher (h : RunTrace c documents artifacts tagged new) {d q : Document}
    (hd : d ∈ documents) (hq : q ∈ d.refetchers c) : ∃ q' ∈ tagged, Tagged c q q' :=
  exists_of_forall₂ h.settled.flip (List.mem_append_right _ (List.mem_flatMap.mpr ⟨d, hd, hq⟩))

theorem exists_artifact (h : RunTrace c documents artifacts tagged new) {d : Document}
    (hd : d ∈ tagged) (hgenerate : d.generate = true) :
    ∃ a ∈ artifacts, (runContext c documents).compile d = .ok a :=
  exists_of_forall₂ h.compiled.flip (List.mem_filter.mpr ⟨hd, hgenerate⟩)

theorem mem_final (h : RunTrace c documents artifacts tagged new) {d : Document}
    (hd : d ∈ tagged) : d ∈ (runPipeline c documents).documents :=
  h.final ▸ List.mem_append_left _ hd

/-- The fragments of a run have the names that they had. -/
theorem fragmentNames (h : RunTrace c documents artifacts tagged new) :
    tagged.flatMap (·.fragmentNames) = documents.flatMap (·.fragmentNames) := by
  rw [flatMap_fragmentNames_tagged h.settled, fragmentNames_pagedDocuments h.paginated]

/-- **Artifacts are compiled with the fragments of the run**, where these have names of their own. -/
theorem get?_fragments (h : RunTrace c documents artifacts tagged new)
    (hnames : ((fragmentsOf (documents.flatMap (·.definitions))).map (·.name)).Nodup)
    (hfree : ∀ f ∈ fragmentsOf (documents.flatMap (·.definitions)),
      (runRegistry c documents).operation? c f.name = none)
    {d : Document} (hd : d ∈ tagged) {f : Fragment} (hf : .fragment f ∈ d.executables) :
    Table.get? (runContext c documents).fragments f.name = some f := by
  have hmem : f.name ∈ (fragmentsOf (documents.flatMap (·.definitions))).map (·.name) := by
    rw [names_fragmentsOf_flatMap, ← h.fragmentNames]
    refine List.mem_flatMap.mpr ⟨d, hd, ?_⟩
    rw [fragmentNames_eq]
    exact List.mem_filterMap.mpr ⟨_, hf, rfl⟩
  have hnone : Table.get? (fragmentTable new) f.name = none := by
    by_contra hsome
    obtain ⟨g, hg⟩ := Option.ne_none_iff_exists'.mp hsome
    obtain ⟨hname, d', hd', hdefinition⟩ := fragmentTable_mem hg
    have hin : f.name ∈ new.flatMap (·.fragmentNames) :=
      List.mem_flatMap.mpr ⟨d', hd', List.mem_filterMap.mpr ⟨_, hdefinition, congrArg some hname⟩⟩
    have hop := (h.generated f.name).mp hin
    obtain ⟨own, hown, hsame⟩ := List.mem_map.mp hmem
    rw [← hsame, hfree own hown] at hop
    exact absurd hop nofun
  rw [names_fragmentsOf_flatMap, ← h.fragmentNames] at hnames
  have hfragments : (runContext c documents).fragments = fragmentTable (tagged ++ new) := by
    rw [← h.final]
    rfl
  rw [hfragments, get?_fragmentTable_append, hnone, Option.none_or]
  exact get?_fragmentTable_of_nodup hnames hd hf

end RunTrace

end QueryCompiler
