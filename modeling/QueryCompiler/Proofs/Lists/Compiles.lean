import QueryCompiler.Proofs.Lists.Captured
import QueryCompiler.Proofs.Lists.Identity
import QueryCompiler.Proofs.Lists.Logs
/-
# Whether generated fragments compile

The fragments of a list are made against the type of its members.  What they select was captured in a
document, where it was made against that type already, and the `id` that identifies a record, which
is put in without a look at the type.  So when the documents select only fields that exist, there are
two ways in which a field can still be missing (`GeneratedLacks`): members of a type that has no
`id`, such as a union or a connection whose nodes are not selected; and a connection, in a fragment
that the members spread, that has gained page information which its type does not have.

* `addListFragments_compiles`: generated fragments lack nothing else.
-/
namespace QueryCompiler

open Tagging

variable {c : Config} {r : Registry} {E : Error → Prop} {documents new : List Document}

/-! ## 1. The fragments of a list -/

/-- The fields that may be missing from what is generated for the lists of a registry, after some
visits: the `id` of members that have none, and page information that a visit puts in. -/
inductive GeneratedLacks (c : Config) (r : Registry) (visits : List Visit) : Error → Prop
  | identity {row : String × ListDefinition} {type : NamedType} (hrow : row ∈ r)
      (htype : row.2.type = some type) (hid : type.field? "id" = none) :
      GeneratedLacks c r visits (.noField type.name "id")
  | pageInfo {v : Visit} {head : FieldHead} {e : Error} (hv : v ∈ visits)
      (hconnects : v.Connects c head)
      (he : e ∈ c.schema.fieldErrors (v.ancestors ++ [.field head]) QueryCompiler.pageInfo) :
      GeneratedLacks c r visits e

/-- A record identifies itself by a field that its type may lack. -/
theorem missing_idField {s : Schema} {type : NamedType} (htype : s.type? type.name = some type)
    (hid : type.field? "id" = none → E (.noField type.name "id")) :
    EveryIn (Missing s E) [.fragment type.name] [idField] := by
  rw [everyIn_singleton, idField, plainField, Selection.Every]
  refine ⟨fun e he => ?_, everyIn_nil _⟩
  have habove : s.typeAt [.fragment type.name] = some type := htype
  rw [habove, fieldError?, if_neg (by decide), Compilation.definition] at he
  cases hfield : type.field? "id" with
  | some f =>
    rw [hfield] at he
    cases he
  | none =>
    rw [hfield] at he
    exact Option.some.inj he ▸ hid hfield

/-- **The fragments of a list** that selects only fields that exist lack at most the `id`. -/
theorem missing_listFragments {s : Schema} {row : String × ListDefinition} {fs : ListFragments}
    (hrow : row.2.Declared s) (hof : ListFragments.Of c row fs)
    (hid : ∀ type, row.2.type = some type → type.field? "id" = none →
      E (.noField type.name "id")) :
    ∀ f ∈ fs.all, EveryIn (Missing s E) [.fragment f.condition] f.selections := by
  obtain ⟨type, htype, hname, hdeclared⟩ := hrow
  obtain ⟨-, type', htype', rfl⟩ := hof
  obtain rfl := Option.some.inj (htype.symm.trans htype')
  have hidentity := missing_idField hname (hid type htype)
  have hcaptured : EveryIn (Missing s E) [.fragment type.name] row.2.selections :=
    everyIn_missing_of_nil hdeclared
  have hinserted : EveryIn (Missing s E) [.fragment type.name] row.2.inserted := by
    rw [ListDefinition.inserted]
    split
    · exact hcaptured
    · exact everyIn_append.mpr ⟨hcaptured, hidentity⟩
  exact List.forall_mem_cons.mpr ⟨hinserted, List.forall_mem_cons.mpr
    ⟨everyIn_append.mpr ⟨hinserted, hidentity⟩, List.forall_mem_singleton.mpr hidentity⟩⟩

/-- All fragments of a list select a field `id`. -/
theorem selectsId_of_mem_all {row : String × ListDefinition} {fs : ListFragments}
    (hof : ListFragments.Of c row fs) : ∀ f ∈ fs.all, selectsId f.selections = true := by
  obtain ⟨-, type, -, rfl⟩ := hof
  have hput (ss : List Selection) : selectsId (ss ++ [idField]) = true := by
    rw [selectsId, List.any_append, Bool.or_eq_true]
    exact .inr rfl
  have hinserted : selectsId row.2.inserted = true := by
    rw [ListDefinition.inserted]
    split
    · assumption
    · exact hput _
  exact List.forall_mem_cons.mpr ⟨hinserted, List.forall_mem_cons.mpr
    ⟨hput _, List.forall_mem_singleton.mpr rfl⟩⟩

/-- Selections with a field `id` do not compile against a type that has none. -/
theorem isOk_compile_of_selectsId {type : NamedType} {ss : List Selection}
    (hss : selectsId ss = true) (hid : type.field? "id" = none) (x : Compilation) :
    (x.compile type ss).isOk = false := by
  obtain ⟨selection, hmem, hfield⟩ := List.any_eq_true.mp hss
  cases selection with
  | field head below =>
    have hname : head.name = "id" := of_decide_eq_true hfield
    obtain ⟨e, he⟩ := Compilation.exists_error_of_lacking (x := x) hmem
      (by rw [hname]; decide) (hname ▸ hid)
    rw [he]
    rfl
  | spread _ _ | inline _ _ _ => cases hfield

/-- The `id` alone does not compile against such a type because it is not found. -/
theorem compile_idField {type : NamedType} (hid : type.field? "id" = none) (x : Compilation) :
    x.compile type [idField] = .error (.noField type.name "id") := by
  rw [Compilation.compile, Compilation.forest, idField, plainField, Compilation.tree,
    if_neg (by decide), Compilation.definition]
  dsimp only
  rw [hid]
  rfl

/-! ## 2. All fragments after the pass -/

/-- **What the pass leaves of valid documents** lacks no fields but those of the page information that
it has put in. -/
theorem Settles.missing {d d' : Document} (h : Settles c r d d') (hd : d.Declared c.schema)
    (hgained : GainedErrors c E (d.visits c)) :
    ∀ e ∈ d'.executables, EveryIn (Missing c.schema E) [e.ancestor] e.selections := by
  refine h.everyIn fun e he => ?_
  exact everyIn_missing_settledAll (everyIn_missingGains_document hgained he)
    (everyIn_missing_of_nil (hd e he))

/-- A fragment that is generated for a registry is one of those of its lists. -/
theorem Generates.exists_fragments (h : Generates c r new) :
    ∃ fragments, List.Forall₂ (ListFragments.Of c) r fragments ∧
      fragmentsOf (new.flatMap (·.definitions)) = fragments.flatMap ListFragments.all := by
  obtain ⟨fragments, hfragments, hdefinitions⟩ := listDefinitions_eq_ok.mp h.definitions
  refine ⟨fragments, hfragments, ?_⟩
  rw [hdefinitions, fragmentsOf_append, fragmentsOf_map_fragment, fragmentsOf_deleteDefinitions,
    List.append_nil]

/-- The fragments in the table after the pass lack what the documents and the lists lack. -/
theorem missing_fragmentTable {tagged : List Document} {fragments : List ListFragments}
    (htagged : ∀ d ∈ tagged, ∀ e ∈ d.executables,
      EveryIn (Missing c.schema E) [e.ancestor] e.selections)
    (hnew : fragmentsOf (new.flatMap (·.definitions)) = fragments.flatMap ListFragments.all)
    (hlists : ∀ fs ∈ fragments, ∀ f ∈ fs.all,
      EveryIn (Missing c.schema E) [.fragment f.condition] f.selections) :
    ∀ name f, Table.get? (fragmentTable (tagged ++ new)) name = some f →
      EveryIn (Missing c.schema E) [.fragment f.condition] f.selections := by
  intro name f hf
  obtain ⟨-, d, hd, hmem⟩ := fragmentTable_mem hf
  rcases List.mem_append.mp hd with hd | hd
  · exact htagged d hd (.fragment f) (List.mem_filterMap.mpr ⟨_, hmem, rfl⟩)
  · have hall : f ∈ fragmentsOf (new.flatMap (·.definitions)) :=
      List.mem_filterMap.mpr ⟨_, List.mem_flatMap.mpr ⟨d, hd, hmem⟩, rfl⟩
    rw [hnew] at hall
    obtain ⟨fs, hfs, hf⟩ := List.mem_flatMap.mp hall
    exact hlists fs hfs f hf

/-- The fragment is on a type.  Compiled against it with the fragments of some documents, it lacks no
fields but as `E` says; and it fails when the type has no `id`. -/
structure Fragment.CompilesOn (c : Config) (E : Error → Prop) (documents : List Document)
    (type : NamedType) (f : Fragment) : Prop where
  condition : f.condition = type.name
  lacksOnly : ∀ x : Compilation, x.config.schema = c.schema →
    x.fragments = fragmentTable documents → LacksOnly E (x.compile type f.selections)
  fails : type.field? "id" = none → ∀ x : Compilation, (x.compile type f.selections).isOk = false

/-- The fragments of a list have their names, and are on the type of its members.  What is removed is
known by its `id` alone, so that is what is missing there when the type has none. -/
structure ListFragments.Compile (c : Config) (E : Error → Prop) (documents : List Document)
    (row : String × ListDefinition) (fs : ListFragments) : Prop where
  names : fs.all.map (·.name) = c.generatedNames row.1
  members : ∃ type, row.2.type = some type ∧ c.schema.type? type.name = some type ∧
    (∀ f ∈ fs.all, f.CompilesOn c E documents type) ∧
      (type.field? "id" = none → ∀ x : Compilation,
        x.compile type fs.remove.selections = .error (.noField type.name "id"))

/-- Fragments of a list compile as far as all fragments of the documents do. -/
theorem ListFragments.Of.compile {row : String × ListDefinition} {fs : ListFragments}
    (hof : ListFragments.Of c row fs) (hrow : row.2.Declared c.schema)
    (hown : ∀ f ∈ fs.all, EveryIn (Missing c.schema E) [.fragment f.condition] f.selections)
    (htable : ∀ name f, Table.get? (fragmentTable documents) name = some f →
      EveryIn (Missing c.schema E) [.fragment f.condition] f.selections) :
    fs.Compile c E documents row := by
  obtain ⟨type, htype, hname, -⟩ := hrow
  have hselects := selectsId_of_mem_all hof
  obtain ⟨-, type', htype', rfl⟩ := hof
  obtain rfl := Option.some.inj (htype.symm.trans htype')
  have hconditions : ∀ f ∈ (build c row.1 type row.2).all, f.condition = type.name := by
    simp [all, build]
  refine ⟨rfl, type, htype, hname, fun f hf => ⟨hconditions f hf, fun x hx hfragments => ?_,
    isOk_compile_of_selectsId (hselects f hf)⟩, compile_idField⟩
  have hf' := hown f hf
  rw [hconditions f hf, ← hx] at hf'
  refine Compilation.compile_lacksOnly (Schema.leads_name (hx ▸ hname)) hf' fun name g hg => ?_
  rw [hx]
  exact htable name g (hfragments ▸ hg)

/-! ## 3. The list pass -/

section Pass

variable {tagged : List Document} {st st' : TagState}

/-- The registry holds what it held before, and what was captured in the documents. -/
theorem declared_tagDocuments (hr : st.registry.Declared c.schema)
    (hdocuments : ∀ d ∈ documents, d.Declared c.schema)
    (h : tagDocuments c st documents = (tagged, st', .ok ())) :
    st'.registry.Declared c.schema := by
  rw [(tagDocuments_run h).2.1]
  refine declared_registryAfter hr fun v hv => ?_
  obtain ⟨d, hd, hv⟩ := List.mem_flatMap.mp hv
  exact within_visits_document (fun e he => everyIn_missing_of_nil (hdocuments d hd e he)) v hv

/-- After a run without faults the documents lack only what has been put in. -/
theorem missing_tagDocuments (hdocuments : ∀ d ∈ documents, d.Declared c.schema)
    (h : tagDocuments c st documents = (tagged, st', .ok ())) (herrors : st'.errors = [])
    (hgained : GainedErrors c E (documents.flatMap (·.visits c))) :
    ∀ d' ∈ tagged, ∀ e ∈ d'.executables,
      EveryIn (Missing c.schema E) [e.ancestor] e.selections := by
  have hend : LeadsTo st' st'.registry true := ⟨herrors, fun _ _ hl => hl, fun _ => rfl⟩
  obtain ⟨-, hsettles⟩ := tagDocuments_settles (fun d _ => d.marksIn_true) h
  intro d' hd'
  obtain ⟨d, hd, hsettled⟩ := exists_of_forall₂ (hsettles st'.registry hend).2 hd'
  exact hsettled.missing (hdocuments d hd) fun v hv =>
    hgained v (List.mem_flatMap.mpr ⟨d, hd, hv⟩)

end Pass

/-- **Generated fragments compile** but for two kinds of fields that may be missing.  When the list
pass succeeds over documents that select only fields that exist, every list has three fragments on
the type of its members; compiling them fails for want of a field only where that is the `id` of
members that have none, and then it does fail, or page information that the pass has put into a
connection. -/
theorem addListFragments_compiles (hr : r.Declared c.schema)
    (hdocuments : ∀ d ∈ documents, d.Declared c.schema)
    (h : (addListFragments c r documents).result = .ok new) :
    ∃ fragments : List ListFragments,
      fragmentsOf (new.flatMap (·.definitions)) = fragments.flatMap ListFragments.all ∧
      List.Forall₂ (ListFragments.Compile c
          (GeneratedLacks c (addListFragments c r documents).registry
            (documents.flatMap (·.visits c)))
          (addListFragments c r documents).documents)
        (addListFragments c r documents).registry fragments := by
  obtain ⟨tagged, st, htag, herrors, hregistry, hafter, hgenerates⟩ := addListFragments_eq_ok h
  obtain ⟨fragments, hfragments, hnew⟩ := hgenerates.exists_fragments
  rw [hregistry, hafter]
  have hdeclared : st.registry.Declared c.schema := declared_tagDocuments hr hdocuments htag
  have htagged := missing_tagDocuments (E := GeneratedLacks c st.registry _) hdocuments htag herrors
    fun v hv head hconnects e he => .pageInfo hv hconnects he
  have hlists (row : String × ListDefinition) (hrow : row ∈ st.registry) (fs : ListFragments)
      (hof : ListFragments.Of c row fs) : ∀ f ∈ fs.all, EveryIn (Missing c.schema
        (GeneratedLacks c st.registry (documents.flatMap (·.visits c)))) [.fragment f.condition]
          f.selections :=
    missing_listFragments (hdeclared row hrow) hof fun _ htype hid => .identity hrow htype hid
  have htable := missing_fragmentTable htagged hnew fun fs hfs => by
    obtain ⟨row, hrow, hof⟩ := exists_of_forall₂ hfragments hfs
    exact hlists row hrow fs hof
  have hrows := (List.forall₂_and_left _ _).mpr ⟨fun row hrow => hrow, hfragments⟩
  exact ⟨fragments, hnew, hrows.imp fun row fs ⟨hrow, hof⟩ =>
    hof.compile (hdeclared row hrow) (hlists row hrow fs hof) htable⟩

/-! ## 4. Members without an identity -/

namespace Sample

/-- Entities, which are users but have no fields themselves, and connections of users, which page
without the page information. -/
def entities : Schema :=
  { types := [.scalar "Int", .scalar "String", .scalar "ID",
      .object "UserEdge" [] [⟨"node", some [], .named "User"⟩],
      .object "UserConnection" [] [⟨"edges", some [], .list (.named "UserEdge")⟩],
      .object "User" [] [⟨"id", some [], .named "ID"⟩,
        ⟨"friends", some [("first", .named "Int"), ("after", .named "String")],
          .named "UserConnection"⟩],
      .union "Entity" ["User"],
      .object "Query" [] [⟨"users", some [], .list (.named "User")⟩,
        ⟨"entities", some [], .list (.named "Entity")⟩]]
    query := some "Query", mutation := none, subscription := none }

/-- A list of entities. -/
def allEntities : List Document :=
  [operation .query "Entities" [listField "entities" "Entities"
    [.inline (some "User") [] [plainField "id" []]]]]

/-- A list of users, whose friends are a connection in a fragment. -/
def usersWithFriends : List Document :=
  [operation .query "Users" [listField "users" "Users" [plainField "id" [],
      .spread "UserFriends" []]],
    fragment "UserFriends" "User" [listField "friends" "Friends"
      [plainField "edges" [plainField "node" [plainField "id" []]]]]]

/-- Valid documents come through the list pass, and then the generated fragment of a name does not
compile. -/
def Uncompiled (documents : List Document) (name : String) (e : Error) : Prop :=
  let pass := addListFragments (config entities) [] documents
  let x : Compilation := { config := config entities, registry := pass.registry,
                           fragments := fragmentTable pass.documents, kind := .fragment }
  (∀ d ∈ documents, d.Declared entities) ∧ ∃ new, pass.result = .ok new ∧
    ∃ f ∈ fragmentsOf (new.flatMap (·.definitions)), f.name = name ∧
      ∃ type, entities.type? f.condition = some type ∧ x.compile type f.selections = .error e

end Sample

open Sample in
/-- The list of entities has its three fragments. -/
theorem allEntities_compile :
    ∃ new, (addListFragments (config entities) [] allEntities).result = .ok new ∧
      ∃ fragments : List ListFragments, fragments.length = 1 ∧
        fragmentsOf (new.flatMap (·.definitions)) = fragments.flatMap ListFragments.all ∧
        List.Forall₂ (ListFragments.Compile (config entities)
            (GeneratedLacks (config entities)
              (addListFragments (config entities) [] allEntities).registry
              (allEntities.flatMap (·.visits (config entities))))
            (addListFragments (config entities) [] allEntities).documents)
          (addListFragments (config entities) [] allEntities).registry fragments := by
  obtain ⟨new, hnew⟩ : ∃ new,
      (addListFragments (config entities) [] allEntities).result = .ok new := ⟨_, rfl⟩
  obtain ⟨fragments, hfragments, hall⟩ := addListFragments_compiles
    (fun _ hrow => absurd hrow List.not_mem_nil) (by decide +kernel) hnew
  exact ⟨new, hnew, fragments, hall.length_eq.symm, hfragments, hall⟩

open Sample in
/-- A union has no `id`, and the edges of a connection need not have a cursor. -/
theorem entities_uncompiled :
    Uncompiled allEntities "Entities_insert" (.noField "Entity" "id") ∧
      Uncompiled usersWithFriends "Users_insert" (.noField "UserEdge" "cursor") :=
  ⟨⟨by decide +kernel, _, rfl, _, List.mem_cons_self, rfl, _, rfl, rfl⟩,
    ⟨by decide +kernel, _, rfl, _, List.mem_cons_self, rfl, _, rfl, rfl⟩⟩

end QueryCompiler
