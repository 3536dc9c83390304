import QueryCompiler.Proofs.Artifact.Alike
import QueryCompiler.Proofs.Lists.Rearranged
import QueryCompiler.Proofs.Lists.Steady
/-
# Documents in another order

A run goes through its documents in their order, and fills a registry and a table of fragments on
its way.  Where no name of a fragment or a list comes twice, these have the same rows whatever the
order, so a document is compiled alike.

One thing is left that depends on the order: a deletion has no list of its own, and reads its guards
as the first list of its type does.  Two lists of one type that declare an argument with different
types make the difference (`ReadsAlike`, `usersFirst_reordered`).

* `addListFragments_perm`: the list pass in another order;
* `runPipeline_perm`: whole runs.
-/
namespace QueryCompiler

variable {c : Config} {documents documents' : List Document}

/-! ## 1. The list pass -/

/-- The lists that are found in another order. -/
theorem lists_rearranged (hperm : documents.Perm documents')
    (hnodup : (documents.flatMap (·.listNames c)).Nodup) :
    Table.Rearranged (documents.flatMap (·.lists c)) (documents'.flatMap (·.lists c)) := by
  refine ⟨hperm.flatMap_right _, ?_⟩
  have hkeys : (Table.keys (documents.flatMap (·.lists c))).Subperm
      (documents.flatMap (·.listNames c)) := by
    rw [Table.keys, List.map_flatMap]
    exact subperm_flatMap_congr fun d hd =>
      (tagDocument_eq ((List.nodup_flatMap.mp hnodup).1 d hd)).1.subperm
  exact nodup_of_subperm hkeys hnodup

/-- Fragments with distinct names are found in any order of their documents. -/
theorem get?_fragmentTable_perm (hperm : documents.Perm documents')
    (hnames : (documents.flatMap (·.fragmentNames)).Nodup) (name : String) :
    Table.get? (fragmentTable documents) name = Table.get? (fragmentTable documents') name := by
  refine Table.get?_ofRows_perm (((hperm.flatMap_right _).filterMap _).map _) ?_ name
  rw [← names_fragmentsOf_flatMap] at hnames
  rw [Table.keys, List.map_map]
  exact hnames

/-- **Generated fragments** do not depend on the order of the lists. -/
theorem get?_generated {r r' : Registry} {new new' : List Document} (h : Table.Rearranged r r')
    (hnew : Generates c r new) (hnew' : Generates c r' new') (name : String) :
    Table.get? (fragmentTable new) name = Table.get? (fragmentTable new') name := by
  obtain ⟨fragments, hfragments, hof⟩ := fragmentsOf_listDefinitions hnew.definitions
  obtain ⟨fragments', hfragments', hof'⟩ := fragmentsOf_listDefinitions hnew'.definitions
  obtain ⟨_, hmap, hperm⟩ := mapM_perm h.perm hfragments
  obtain rfl := Except.ok.inj (hmap.symm.trans hfragments')
  refine Table.get?_ofRows_perm ?_ ?_ name
  · rw [hof, hof']
    exact (hperm.flatMap_right _).map _
  · rw [Table.keys, List.map_map]
    refine Eq.subst (names_listDefinitions hnew.definitions).symm ?_
    exact nodup_generatedNames h.nodup

/-- **The list pass in another order** succeeds as well. -/
theorem addListFragments_perm (hperm : documents.Perm documents')
    (hnodup : (documents.flatMap (·.listNames c)).Nodup) {new : List Document}
    (h : (addListFragments c [] documents).result = .ok new) :
    ∃ new', (addListFragments c [] documents').result = .ok new' := by
  have hnodup' : (documents'.flatMap (·.listNames c)).Nodup :=
    (hperm.flatMap_right _).nodup_iff.mp hnodup
  obtain ⟨htagged, hfaults, hlists⟩ := (addListFragments_succeeds hnodup).mp ⟨new, h⟩
  refine (addListFragments_succeeds hnodup').mpr ⟨fun d hd => htagged d (hperm.mem_iff.mpr hd),
    fun d hd => hfaults d (hperm.mem_iff.mpr hd), fun row hrow => hlists row ?_⟩
  exact (hperm.flatMap_right _).mem_iff.mpr hrow

/-! ## 2. Runs -/

/-- The lists that a run finds in some documents. -/
def runLists (c : Config) (documents : List Document) : Registry :=
  documents.flatMap fun d => (d.paged c).lists c

/-- A query that refetches a document has no lists. -/
theorem lists_pagedDocuments (h : ∀ d ∈ documents, (paginateDocument c d).2.isOk = true) :
    (pagedDocuments c documents).flatMap (·.lists c) = runLists c documents := by
  have hown : ∀ d ∈ documents, (d.refetchers c).flatMap (·.lists c) = [] := fun d hd => by
    obtain ⟨-, hown⟩ := listNames_paginateDocument (paginateDocument_eq_ok.mpr ⟨h d hd, rfl, rfl⟩)
    refine List.flatMap_eq_nil_iff.mpr fun q hq => ?_
    have hkeys := (tagDocument_eq (c := c) (d := q) (hown q hq ▸ List.nodup_nil)).1
    rw [hown q hq, List.sublist_nil] at hkeys
    exact List.map_eq_nil_iff.mp hkeys
  rw [pagedDocuments, List.flatMap_append, List.flatMap_map, List.flatMap_assoc,
    List.flatMap_eq_nil_iff.mpr hown, List.append_nil, runLists]

/-- A run before the compilation: `tagged` is what the passes leave of its documents, and `new` is
what is generated for lists. -/
structure Prepared (c : Config) (documents tagged new : List Document) : Prop where
  paginated : ∀ d ∈ documents, (paginateDocument c d).2.isOk = true
  listed : (addListFragments c [] (pagedDocuments c documents)).result = .ok new
  visited : (pagedDocuments c documents).mapM (·.tagged c) = .ok tagged
  fragmentNames : tagged.flatMap (·.fragmentNames) = documents.flatMap (·.fragmentNames)
  final : (runPipeline c documents).documents = tagged ++ new
  registry : runRegistry c documents = runLists c documents
  generates : Generates c (runLists c documents) new

theorem nodup_pagedDocuments (hnodup : (documents.flatMap (·.listNames c)).Nodup)
    (h : ∀ d ∈ documents, (paginateDocument c d).2.isOk = true) :
    ((pagedDocuments c documents).flatMap (·.listNames c)).Nodup :=
  nodup_of_subperm (listNames_pagedDocuments h) hnodup

/-- With distinct names of lists, a run is prepared when the passes succeed. -/
theorem prepared {new : List Document} (hnodup : (documents.flatMap (·.listNames c)).Nodup)
    (hpaginated : ∀ d ∈ documents, (paginateDocument c d).2.isOk = true)
    (hlisted : (addListFragments c [] (pagedDocuments c documents)).result = .ok new) :
    ∃ tagged, Prepared c documents tagged new := by
  have hpaged : paginate c documents = (pagedDocuments c documents, .ok _) :=
    paginate_eq_ok.mpr ⟨hpaginated, rfl, rfl⟩
  obtain ⟨tagged, hvisited, htagged, hdocuments, hregistry, hgenerates⟩ :=
    addListFragments_steady (nodup_pagedDocuments hnodup hpaginated) hlisted
  rw [lists_pagedDocuments hpaginated] at hregistry hgenerates
  refine ⟨tagged, hpaginated, hlisted, hvisited, ?_, ?_, ?_, hgenerates⟩
  · rw [flatMap_fragmentNames_tagged htagged, fragmentNames_pagedDocuments hpaginated]
  · rw [runPipeline, hpaged]
    exact hdocuments
  · rw [runRegistry, hpaged]
    exact hregistry

namespace Prepared

variable {tagged tagged' new new' : List Document}

/-- Artifacts are wanted of no document that was generated. -/
theorem generated (h : Prepared c documents tagged new) :
    (runPipeline c documents).documents.filter (·.generate) = tagged.filter (·.generate) := by
  have hnone : new.filter (·.generate) = [] := List.filter_eq_nil_iff.mpr fun d hd =>
    Bool.eq_false_iff.mp (h.generates.generate_eq_false d hd)
  rw [h.final, List.filter_append, hnone, List.append_nil]

/-- Of a run that is prepared, the compilation is left. -/
theorem result (h : Prepared c documents tagged new) :
    (runPipeline c documents).result
      = (tagged.filter (·.generate)).mapM (runContext c documents).compile := by
  have hpaged : paginate c documents = (pagedDocuments c documents, .ok _) :=
    paginate_eq_ok.mpr ⟨h.paginated, rfl, rfl⟩
  rw [← h.generated, runContext, runRegistry, runPipeline, hpaged]
  dsimp only
  rw [h.listed]
  rfl

/-- A run in another order is prepared alike. -/
theorem perm (h : Prepared c documents tagged new) (hperm : documents.Perm documents')
    (hnodup : (documents.flatMap (·.listNames c)).Nodup) :
    ∃ tagged' new', Prepared c documents' tagged' new' ∧ tagged.Perm tagged' := by
  have hnodup' : (documents'.flatMap (·.listNames c)).Nodup :=
    (hperm.flatMap_right _).nodup_iff.mp hnodup
  have hpaged : (pagedDocuments c documents).Perm (pagedDocuments c documents') :=
    (hperm.map _).append (hperm.flatMap_right _)
  obtain ⟨new', hlisted⟩ :=
    addListFragments_perm hpaged (nodup_pagedDocuments hnodup h.paginated) h.listed
  obtain ⟨tagged', h'⟩ :=
    prepared hnodup' (fun d hd => h.paginated d (hperm.mem_iff.mpr hd)) hlisted
  obtain ⟨_, hvisited, htagged⟩ := mapM_perm hpaged h.visited
  obtain rfl := Except.ok.inj (hvisited.symm.trans h'.visited)
  exact ⟨_, new', h', htagged⟩

/-- **What artifacts are compiled with** in another order. -/
theorem alike (h : Prepared c documents tagged new) (h' : Prepared c documents' tagged' new')
    (hperm : documents.Perm documents') (htagged : tagged.Perm tagged')
    (hnodup : (documents.flatMap (·.listNames c)).Nodup)
    (hfragments : (documents.flatMap (·.fragmentNames)).Nodup)
    (halike : (runLists c documents).ReadsAlike) :
    (runContext c documents).Alike (runContext c documents') := by
  have hpaged : (pagedDocuments c documents).Perm (pagedDocuments c documents') :=
    (hperm.map _).append (hperm.flatMap_right _)
  have hlists := lists_rearranged hpaged (nodup_pagedDocuments hnodup h.paginated)
  rw [lists_pagedDocuments h.paginated, lists_pagedDocuments h'.paginated] at hlists
  have hregistry : Table.Rearranged (runRegistry c documents) (runRegistry c documents') := by
    rw [h.registry, h'.registry]
    exact hlists
  have htyped := h.generates.typed
  rw [← h.registry] at halike htyped
  refine ⟨⟨_, rfl⟩, ?_, listOperations_rearranged hregistry htyped halike,
    deletedType?_rearranged hregistry⟩
  refine .of_get? (Table.nodup_keys_ofRows _) (Table.nodup_keys_ofRows _) fun name => ?_
  change Table.get? (fragmentTable (runPipeline c documents).documents) name
    = Table.get? (fragmentTable (runPipeline c documents').documents) name
  rw [h.final, h'.final, get?_fragmentTable_append, get?_fragmentTable_append,
    get?_generated hlists h.generates h'.generates,
    get?_fragmentTable_perm htagged (h.fragmentNames ▸ hfragments)]

end Prepared

/-! ## 3. Artifacts -/

/-- A run in another order succeeds as well, with the same artifacts. -/
theorem runPipeline_reordered {artifacts : List Artifact} (hperm : documents.Perm documents')
    (hfragments : (documents.flatMap (·.fragmentNames)).Nodup)
    (hlists : (documents.flatMap (·.listNames c)).Nodup)
    (halike : (runLists c documents).ReadsAlike)
    (h : (runPipeline c documents).result = .ok artifacts) :
    ∃ artifacts', (runPipeline c documents').result = .ok artifacts' ∧
      artifacts.Perm artifacts' ∧
      (((runPipeline c documents).documents.filter (·.generate)).zip artifacts).Perm
        (((runPipeline c documents').documents.filter (·.generate)).zip artifacts') := by
  obtain ⟨paged, refetched, new, hpaged, hlisted, -⟩ := runPipeline_result.mp h
  obtain ⟨hpaginated, rfl, rfl⟩ := paginate_eq_ok.mp hpaged
  obtain ⟨tagged, hprepared⟩ := prepared hlists hpaginated hlisted
  obtain ⟨tagged', new', hprepared', htagged⟩ := hprepared.perm hperm hlists
  have hcompile := funext
    (hprepared.alike hprepared' hperm htagged hlists hfragments halike).compile_eq
  rw [hprepared.result] at h
  obtain ⟨artifacts', hartifacts, hsame⟩ := mapM_perm (htagged.filter (·.generate)) h
  refine ⟨artifacts', ?_, hsame, ?_⟩
  · rw [hprepared'.result, ← hcompile]
    exact hartifacts
  · rw [hprepared.generated, hprepared'.generated, zip_mapM h, zip_mapM hartifacts]
    exact (htagged.filter _).filterMap _

/-- **The order of documents** does not change what is compiled.  Where fragments and lists have
distinct names, and lists with members of one type read guards on their arguments alike, a run
succeeds in one order if and only if it does in the other, and then every document has the same
artifact in both. -/
theorem runPipeline_perm (hperm : documents.Perm documents')
    (hfragments : (documents.flatMap (·.fragmentNames)).Nodup)
    (hlists : (documents.flatMap (·.listNames c)).Nodup)
    (halike : (runLists c documents).ReadsAlike) :
    ((∃ artifacts, (runPipeline c documents).result = .ok artifacts) ↔
        ∃ artifacts, (runPipeline c documents').result = .ok artifacts) ∧
      ∀ artifacts artifacts', (runPipeline c documents).result = .ok artifacts →
        (runPipeline c documents').result = .ok artifacts' →
          artifacts.Perm artifacts' ∧
          (((runPipeline c documents).documents.filter (·.generate)).zip artifacts).Perm
            (((runPipeline c documents').documents.filter (·.generate)).zip artifacts') := by
  refine ⟨⟨fun ⟨_, h⟩ => ?_, fun ⟨_, h⟩ => ?_⟩, fun artifacts artifacts' h h' => ?_⟩
  · obtain ⟨artifacts', h', -⟩ := runPipeline_reordered hperm hfragments hlists halike h
    exact ⟨artifacts', h'⟩
  · -- the other order satisfies the same conditions
    have hfragments' := (hperm.flatMap_right (·.fragmentNames)).nodup_iff.mp hfragments
    have hlists' := (hperm.flatMap_right (·.listNames c)).nodup_iff.mp hlists
    have halike' : (runLists c documents').ReadsAlike := halike.of_perm (hperm.flatMap_right _)
    obtain ⟨artifacts, h', -⟩ := runPipeline_reordered hperm.symm hfragments' hlists' halike' h
    exact ⟨artifacts, h'⟩
  · obtain ⟨_, hresult, hsame⟩ := runPipeline_reordered hperm hfragments hlists halike h
    obtain rfl := Except.ok.inj (hresult.symm.trans h')
    exact hsame

/-! ## 4. Two lists of one type -/

namespace Sample

/-- Users stand in two lists, and the second one takes a limit of some type. -/
def directory (limit : String) : Schema :=
  { types := [.scalar "String", .scalar "Int", .scalar "ID",
      .object "User" [] [⟨"id", some [], .named "ID"⟩],
      .object "Gone" [] [⟨"id", some [], .named "ID"⟩],
      .object "Mutation" [] [⟨"deleteUser", some [], .named "Gone"⟩],
      .object "Query" [] [⟨"users", some [("limit", .named "Int")], .list (.named "User")⟩,
        ⟨"people", some [("limit", .named limit)], .list (.named "User")⟩]]
    query := some "Query", mutation := some "Mutation", subscription := none }

def allUsers : Document :=
  operation .query "Users" [listField "users" "All_Users" [plainField "id" []]]

def allPeople : Document :=
  operation .query "People" [listField "people" "All_People" [plainField "id" []]]

/-- A user is deleted, and goes out of the lists with one limit. -/
def deletion : List Document :=
  [operation .mutation "DeleteUser" [plainField "deleteUser" [.spread "Removed" []]],
    fragment "Removed" "Gone" [.field { label := none, name := "id", arguments := [], directives :=
      [plainDirective "User_delete" [], plainDirective "when"
        [{ name := "argument", value := .string "limit" false },
          { name := "value", value := .string "1" false }]] } []]]

def usersFirst : List Document := allUsers :: allPeople :: deletion

def peopleFirst : List Document := allPeople :: allUsers :: deletion

/-- The number or the text that the deletion is guarded by. -/
def guardValue? (a : Artifact) : Option (Int ⊕ String) := do
  let head ← Entry.headAt? a.selection ["deleteUser", "id"]
  let rows ← Table.get? (← head.operations.head?).guards .must
  match (← rows.head?).2 with
  | .int value => some (.inl value)
  | .text value => some (.inr value)
  | _ => none

theorem guarded_of_result {result : Except Error (List Artifact)} {value : Int ⊕ String}
    (h : (result.toOption.bind (·.find? (·.name = "DeleteUser"))).bind guardValue? = some value) :
    ∃ artifacts, result = .ok artifacts ∧
      ∃ a ∈ artifacts, a.name = "DeleteUser" ∧ guardValue? a = some value := by
  cases result with
  | error e => exact absurd h nofun
  | ok artifacts =>
    obtain ⟨a, ha, hvalue⟩ := Option.bind_eq_some_iff.mp h
    have hname : a.name = "DeleteUser" := by simpa using List.find?_some ha
    exact ⟨artifacts, rfl, a, List.mem_of_find?_eq_some ha, hname, hvalue⟩

end Sample

open Sample in
/-- Where both lists take a number, all artifacts are the same in both orders. -/
theorem usersFirst_perm :
    ∃ artifacts artifacts',
      (runPipeline (config (directory "Int")) usersFirst).result = .ok artifacts ∧
      (runPipeline (config (directory "Int")) peopleFirst).result = .ok artifacts' ∧
      artifacts.Perm artifacts' ∧
      (((runPipeline (config (directory "Int")) usersFirst).documents.filter
          (·.generate)).zip artifacts).Perm
        (((runPipeline (config (directory "Int")) peopleFirst).documents.filter
          (·.generate)).zip artifacts') := by
  have hperm : usersFirst.Perm peopleFirst := .swap _ _ _
  have harguments : ∀ row ∈ runLists (config (directory "Int")) usersFirst,
      row.2.arguments = [("limit", "Int")] := by decide +kernel
  have halike : (runLists (config (directory "Int")) usersFirst).ReadsAlike := by
    intro row hrow row' hrow' _ _ _ _ _ argument type type' htype htype' d
    rw [harguments row hrow] at htype
    rw [harguments row' hrow'] at htype'
    rw [Option.some.inj (htype.symm.trans htype')]
  have hresult : ((runPipeline (config (directory "Int")) usersFirst).result.toOption.bind
      (·.find? (·.name = "DeleteUser"))).bind guardValue? = some (.inl 1) := by decide +kernel
  obtain ⟨hsucceeds, hsame⟩ := runPipeline_perm hperm (by decide) (by decide +kernel) halike
  obtain ⟨artifacts, h, -⟩ := guarded_of_result hresult
  obtain ⟨artifacts', h'⟩ := hsucceeds.mp ⟨artifacts, h⟩
  exact ⟨artifacts, artifacts', h, h', hsame artifacts artifacts' h h'⟩

open Sample in
/-- Where the limit of the second list is a text, the deletion is guarded by a number in one order
and by a text in the other. -/
theorem usersFirst_reordered :
    usersFirst.Perm peopleFirst ∧ (usersFirst.flatMap (·.fragmentNames)).Nodup ∧
      (∀ name ∈ usersFirst.flatMap (·.fragmentNames),
        (runRegistry (config (directory "String")) usersFirst).operation?
          (config (directory "String")) name = none) ∧
      (usersFirst.flatMap (·.listNames (config (directory "String")))).Nodup ∧
      (usersFirst.map (·.name)).Nodup ∧
      ∃ artifacts artifacts',
        (runPipeline (config (directory "String")) usersFirst).result = .ok artifacts ∧
        (runPipeline (config (directory "String")) peopleFirst).result = .ok artifacts' ∧
        ∃ a ∈ artifacts, ∃ a' ∈ artifacts', a.name = "DeleteUser" ∧ a'.name = "DeleteUser" ∧
          guardValue? a = some (.inl 1) ∧ guardValue? a' = some (.inr "1") := by
  have hfirst : ((runPipeline (config (directory "String")) usersFirst).result.toOption.bind
      (·.find? (·.name = "DeleteUser"))).bind guardValue? = some (.inl 1) := by decide +kernel
  have hsecond : ((runPipeline (config (directory "String")) peopleFirst).result.toOption.bind
      (·.find? (·.name = "DeleteUser"))).bind guardValue? = some (.inr "1") := by decide +kernel
  obtain ⟨artifacts, h, a, ha, hname, hvalue⟩ := guarded_of_result hfirst
  obtain ⟨artifacts', h', a', ha', hname', hvalue'⟩ := guarded_of_result hsecond
  exact ⟨.swap _ _ _, by decide, by decide +kernel, by decide +kernel, by decide, artifacts,
    artifacts', h, h', a, ha, a', ha', hname, hname', hvalue, hvalue'⟩

end QueryCompiler
