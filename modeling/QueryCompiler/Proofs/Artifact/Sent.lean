import QueryCompiler.Artifact.Compile
import QueryCompiler.Proofs.Artifact.Typename
import QueryCompiler.Proofs.Selection.Directives
import QueryCompiler.Proofs.Selection.KeyTree
/-
# The document that is sent, and the selection

An artifact has two views of one document, put together apart from each other: the text that is
sent, and the selection by which the response is read.  The text is made of the definition and of
the fragments that a search finds; the selection is compiled with a table of all fragments there
are.

* `ArtifactContext.compile_shows`: the selection shows an expansion of what is compiled;
* `get?_compiledFragments`: both views take the same fragment under each name that is sent;
* `ArtifactContext.compile_describes_sent`: the selection has the key tree of the document that is
  sent, and this holds every fragment that it spreads.
-/
namespace QueryCompiler

/-! ## 1. Documents on their own -/

/-- The fragment of that name in a document. -/
def fragmentIn (definitions : List Definition) (name : String) : Option Fragment :=
  (fragmentsOf definitions).find? fun f => f.name = name

def Definition.selections : Definition → List Selection
  | .operation o => o.selections
  | .fragment f => f.selections
  | _ => []

/-- Every spread of the document names one of its own fragments. -/
def SpreadsWithin (definitions : List Definition) : Prop :=
  ∀ d ∈ definitions, ∀ name ∈ spreadNamesOf d.selections,
    ∃ f, fragmentIn definitions name = some f

/-- The places that the first definition of a document selects, with its spreads replaced by the
fragments of this very document. -/
def DocumentExpands (definitions : List Definition) (os : List Occurrence) : Prop :=
  ∃ main, definitions.head?.bind Executable.ofDefinition? = some main ∧
    Expands (fragmentIn definitions) { fragment := none, ancestors := [main.ancestor] }
      main.selections os

/-- No field of a document that asks for the name of a type has selections. -/
def Document.typenamesAreLeaves (d : Document) : Bool :=
  d.definitions.all fun definition => typenamesAreLeavesIn definition.selections

theorem DocumentExpands.unique {definitions : List Definition} {os os' : List Occurrence}
    (h : DocumentExpands definitions os) (h' : DocumentExpands definitions os') : os = os' := by
  obtain ⟨main, hmain, hos⟩ := h
  obtain ⟨main', hmain', hos'⟩ := h'
  obtain rfl := Option.some.inj (hmain.symm.trans hmain')
  exact hos.unique hos'

/-- With each name once, a fragment is found under its name. -/
theorem fragmentIn_of_mem {definitions : List Definition} {f : Fragment}
    (hd : ((fragmentsOf definitions).map (·.name)).Nodup) (hf : f ∈ fragmentsOf definitions) :
    fragmentIn definitions f.name = some f := by
  rw [fragmentIn]
  generalize fragmentsOf definitions = fs at hd hf ⊢
  induction fs with
  | nil => exact absurd hf List.not_mem_nil
  | cons g fs ih =>
    obtain ⟨hg, hd⟩ := List.nodup_cons.mp hd
    rcases List.mem_cons.mp hf with rfl | hf
    · rw [List.find?_cons_of_pos (by simp)]
    · have hne : g.name ≠ f.name := fun he => hg (List.mem_map.mpr ⟨f, hf, he.symm⟩)
      rw [List.find?_cons_of_neg (by simpa using hne)]
      exact ih hd hf

/-- What is found under a name is one of the definitions. -/
theorem mem_of_fragmentIn {definitions : List Definition} {name : String} {f : Fragment}
    (h : fragmentIn definitions name = some f) : Definition.fragment f ∈ definitions := by
  obtain ⟨definition, hdef, hfrag⟩ := List.mem_filterMap.mp (List.mem_of_find?_eq_some h)
  cases definition with
  | fragment g => cases hfrag; exact hdef
  | operation _ | schema _ | type _ | directive _ => exact absurd hfrag nofun

/-- The fragments of a definition that is executable and of others behind it. -/
theorem fragmentsOf_main (main : Executable) (others : List Fragment) :
    fragmentsOf (main.definition :: others.map .fragment)
      = (match main with | .operation _ => [] | .fragment f => [f]) ++ others := by
  have hothers : fragmentsOf (others.map Definition.fragment) = others := by
    rw [fragmentsOf, List.filterMap_map]
    exact List.filterMap_some
  cases main with
  | operation o => exact hothers
  | fragment f => exact congrArg (f :: ·) hothers

/-! ## 2. Directives that are not sent -/

theorem fragmentIn_mapDirectives (f : List Directive → List Directive)
    (definitions : List Definition) (name : String) :
    fragmentIn (definitions.map (·.mapDirectives f)) name
      = (fragmentIn definitions name).map (·.mapDirectives f) := by
  have hall : fragmentsOf (definitions.map (·.mapDirectives f))
      = (fragmentsOf definitions).map (·.mapDirectives f) := by
    rw [fragmentsOf, fragmentsOf, List.filterMap_map, List.map_filterMap]
    refine List.filterMap_congr fun d _ => ?_
    cases d <;> rfl
  rw [fragmentIn, hall, List.find?_map]
  rfl

theorem DocumentExpands.mapDirectives (f : List Directive → List Directive)
    {definitions : List Definition} {os : List Occurrence} (h : DocumentExpands definitions os) :
    DocumentExpands (definitions.map (·.mapDirectives f)) (os.map (·.mapDirectives f)) := by
  obtain ⟨main, hmain, hos⟩ := h
  have hos' := hos.mapDirectives f
  have hfragments : (fun name => (fragmentIn definitions name).map (·.mapDirectives f))
      = fragmentIn (definitions.map (·.mapDirectives f)) :=
    funext fun name => (fragmentIn_mapDirectives f definitions name).symm
  rw [hfragments] at hos'
  cases definitions with
  | nil => exact absurd hmain nofun
  | cons d definitions =>
    cases d with
    | operation o => cases hmain; exact ⟨.operation (o.mapDirectives f), rfl, hos'⟩
    | fragment g => cases hmain; exact ⟨.fragment (g.mapDirectives f), rfl, hos'⟩
    | schema _ => exact absurd hmain nofun
    | type _ => exact absurd hmain nofun
    | directive _ => exact absurd hmain nofun

theorem SpreadsWithin.mapDirectives (f : List Directive → List Directive)
    {definitions : List Definition} (h : SpreadsWithin definitions) :
    SpreadsWithin (definitions.map (·.mapDirectives f)) := by
  intro d hd name hname
  obtain ⟨d, hd', rfl⟩ := List.mem_map.mp hd
  have hsame : spreadNamesOf (d.mapDirectives f).selections = spreadNamesOf d.selections := by
    cases d with
    | operation o => exact spreadNamesOf_mapAllDirectives f o.selections
    | fragment g => exact spreadNamesOf_mapAllDirectives f g.selections
    | schema _ => rfl
    | type _ => rfl
    | directive _ => rfl
  obtain ⟨g, hg⟩ := h d hd' name (hsame ▸ hname)
  exact ⟨g.mapDirectives f, by rw [fragmentIn_mapDirectives, hg, Option.map_some]⟩

/-! ## 3. What an artifact is made of -/

namespace ArtifactContext

/-- What a document is compiled from: its definition and the fragments that this refers to, with
the names of types in them. -/
def compiledDefinitions (x : ArtifactContext) (d : Document) :
    Except Error (Executable × List Fragment) := do
  let main ← d.executable
  let others ← referenced x.fragments main
  return (main.withTypenames x.config.schema, others.map (·.withTypenames x.config.schema))

/-- The definitions that are sent for a document. -/
def sentDefinitions (x : ArtifactContext) (d : Document) : Except Error (List Definition) := do
  let (main, others) ← x.compiledDefinitions d
  return x.sent (main.definition :: others.map .fragment)

/-- What the selection of a document is compiled with. -/
def compilation (x : ArtifactContext) (d : Document) (main : Executable)
    (others : List Fragment) : Compilation :=
  { config := x.config, registry := x.registry, fragments := x.compiledFragments main others,
    kind := d.kind }

variable {x : ArtifactContext} {d : Document} {a : Artifact} {main : Executable}
  {others : List Fragment}

theorem compiledDefinitions_eq_ok (h : x.compiledDefinitions d = .ok (main, others)) :
    ∃ e fs, d.executable = .ok e ∧ referenced x.fragments e = .ok fs ∧
      main = e.withTypenames x.config.schema ∧
      others = fs.map (·.withTypenames x.config.schema) := by
  simp only [compiledDefinitions, bind_eq_ok, pure_eq_ok, Prod.mk.injEq] at h
  obtain ⟨e, he, fs, hfs, rfl, rfl⟩ := h
  exact ⟨e, fs, he, hfs, rfl, rfl⟩

/-- What it takes to compile a document. -/
theorem compile_eq_ok (h : x.compile d = .ok a) :
    ∃ main others type, x.compiledDefinitions d = .ok (main, others) ∧
      main.rootType? x.config.schema = some type ∧
      a.raw = printDocument (x.sent (main.definition :: others.map .fragment)) ∧
      (x.compilation d main others).compile type main.selections = .ok a.selection := by
  rw [compile] at h
  simp only [bind_eq_ok] at h
  obtain ⟨e, he, fs, hfs, h⟩ := h
  cases ht : (e.withTypenames x.config.schema).rootType? x.config.schema with
  | none => rw [ht] at h; cases h
  | some type =>
    rw [ht] at h
    simp only [bind_eq_ok, pure_eq_ok] at h
    obtain ⟨selection, hsel, rfl⟩ := h
    refine ⟨_, _, type, ?_, ht, rfl, hsel⟩
    exact bind_eq_ok.mpr ⟨e, he, bind_eq_ok.mpr ⟨fs, hfs, rfl⟩⟩

/-! ## 4. One fragment under each name -/

theorem names_fragmentsOf_main (main : Executable) (others : List Fragment) :
    (fragmentsOf (main.definition :: others.map .fragment)).map (·.name)
      = main.fragmentName?.toList ++ others.map (·.name) := by
  rw [fragmentsOf_main, List.map_append]
  cases main <;> rfl

/-- No two of the fragments that are compiled share a name. -/
theorem compiledDefinitions_nodup (hx : NamedByKey x.fragments)
    (h : x.compiledDefinitions d = .ok (main, others)) :
    ((fragmentsOf (main.definition :: others.map .fragment)).map (·.name)).Nodup := by
  obtain ⟨e, fs, -, hfs, rfl, rfl⟩ := compiledDefinitions_eq_ok h
  have href : Referenced x.fragments e fs := referenced_closed hx hfs
  have hnames : (fs.map (·.withTypenames x.config.schema)).map (·.name) = fs.map (·.name) := by
    rw [List.map_map]
    rfl
  rw [names_fragmentsOf_main, e.fragmentName?_withTypenames, hnames]
  refine List.nodup_append.mpr ⟨?_, href.nodup, ?_⟩
  · cases e.fragmentName? <;> simp
  · intro name hown other hother he
    obtain ⟨f, hf, rfl⟩ := List.mem_map.mp hother
    exact href.notOwn f hf (he ▸ Option.mem_toList.mp hown)

/-- What is compiled holds every fragment that it spreads. -/
theorem compiledDefinitions_within (hx : NamedByKey x.fragments)
    (h : x.compiledDefinitions d = .ok (main, others)) :
    SpreadsWithin (main.definition :: others.map .fragment) := by
  have hnodup := compiledDefinitions_nodup hx h
  obtain ⟨e, fs, -, hfs, rfl, rfl⟩ := compiledDefinitions_eq_ok h
  have href : Referenced x.fragments e fs := referenced_closed hx hfs
  intro definition hdef name hname
  have hspread : name ∈ spreadNamesOf e.selections ∨
      ∃ f ∈ fs, name ∈ spreadNamesOf f.selections := by
    rcases List.mem_cons.mp hdef with rfl | hdef
    · refine .inl ?_
      rw [← e.spreadNamesOf_withTypenames x.config.schema]
      cases e <;> exact hname
    · obtain ⟨f, hf, rfl⟩ := List.mem_map.mp hdef
      obtain ⟨f, hf', rfl⟩ := List.mem_map.mp hf
      exact .inr ⟨f, hf', f.spreadNamesOf_withTypenames x.config.schema ▸ hname⟩
  have hmem : name ∈ (fragmentsOf ((e.withTypenames x.config.schema).definition
      :: (fs.map (·.withTypenames x.config.schema)).map .fragment)).map (·.name) := by
    rw [names_fragmentsOf_main, e.fragmentName?_withTypenames, List.mem_append]
    rcases href.closed name hspread with ⟨f, hf, rfl⟩ | hown
    · exact .inr (List.mem_map.mpr ⟨_, List.mem_map.mpr ⟨f, hf, rfl⟩, rfl⟩)
    · exact .inl (Option.mem_toList.mpr hown)
  obtain ⟨f, hf, rfl⟩ := List.mem_map.mp hmem
  exact ⟨f, fragmentIn_of_mem hnodup hf⟩

/-- The table that a document is compiled with: its own fragments come before all others. -/
theorem get?_compiledFragments_eq (x : ArtifactContext) (main : Executable)
    (others : List Fragment) (name : String) :
    Table.get? (x.compiledFragments main others) name
      = (Table.get? ((others ++ (match main with | .operation _ => [] | .fragment f => [f])).map
          fun f => (f.name, f)).reverse name).or (Table.get? x.fragments name) := by
  rw [← Table.get?_foldl_insert, List.foldl_map]
  rfl

/-- **Under a name that is sent, the compiled fragment is the one that is sent.** -/
theorem get?_compiledFragments {name : String} {f : Fragment}
    (hd : ((fragmentsOf (main.definition :: others.map .fragment)).map (·.name)).Nodup)
    (hf : fragmentIn (main.definition :: others.map .fragment) name = some f) :
    Table.get? (x.compiledFragments main others) name = some f := by
  have hname : f.name = name := by simpa using List.find?_some hf
  have hmem := List.mem_of_find?_eq_some hf
  rw [fragmentsOf_main] at hd hmem
  rw [get?_compiledFragments_eq]
  generalize (match main with | .operation _ => [] | .fragment f => [f]) = own at hd hmem ⊢
  have hperm : ((others ++ own).map fun f => (f.name, f)).reverse.Perm
      ((own ++ others).map fun f => (f.name, f)) :=
    (List.reverse_perm _).trans (List.perm_append_comm.map _)
  have hkeys : (Table.keys ((others ++ own).map fun f => (f.name, f)).reverse).Nodup := by
    refine (hperm.map _).nodup_iff.mpr ?_
    rw [List.map_map]
    exact hd
  rw [Table.get?_of_mem hkeys (hperm.mem_iff.mpr (List.mem_map.mpr ⟨f, hmem, by rw [hname]⟩)),
    Option.some_or]

/-- Where the fragments come from that a document is compiled with: one is the document's own, the
others stand in the table of the context, and may have gained the names of types. -/
theorem compiledFragments_source (hx : NamedByKey x.fragments)
    (h : x.compiledDefinitions d = .ok (main, others)) {name : String} {f : Fragment}
    (hf : Table.get? (x.compiledFragments main others) name = some f) :
    (f.name = name ∧ main = .fragment f) ∨ ∃ g, Table.get? x.fragments name = some g ∧
      (f = g ∨ f = g.withTypenames x.config.schema) := by
  obtain ⟨e, fs, -, hfs, -, rfl⟩ := compiledDefinitions_eq_ok h
  rw [get?_compiledFragments_eq] at hf
  rcases Option.or_eq_some_iff.mp hf with hf | ⟨-, hf⟩
  · obtain ⟨g, hg, hrow⟩ := List.mem_map.mp (List.mem_reverse.mp (Table.mem_of_get? hf))
    obtain ⟨rfl, rfl⟩ := Prod.mk.inj hrow
    rcases List.mem_append.mp hg with hg | hg
    · obtain ⟨g, hg', rfl⟩ := List.mem_map.mp hg
      exact .inr ⟨g, (referenced_closed hx hfs).source g hg', .inr rfl⟩
    · refine .inl ⟨rfl, ?_⟩
      cases main with
      | operation o => exact absurd hg List.not_mem_nil
      | fragment own => rw [List.mem_singleton.mp hg]
  · exact .inr ⟨f, hf, .inl rfl⟩

/-- What the compiled fragments spread stays among those that are sent. -/
theorem expands_fragmentIn
    (hd : ((fragmentsOf (main.definition :: others.map .fragment)).map (·.name)).Nodup)
    (hw : SpreadsWithin (main.definition :: others.map .fragment)) {site : Site}
    {os : List Occurrence}
    (h : Expands (Table.get? (x.compiledFragments main others)) site main.selections os) :
    Expands (fragmentIn (main.definition :: others.map .fragment)) site main.selections os := by
  let names (name : String) : Prop :=
    ∃ f, fragmentIn (main.definition :: others.map .fragment) name = some f
  have hmain : ∀ name ∈ spreadNamesOf main.selections, names name := by
    intro name hname
    refine hw _ List.mem_cons_self name ?_
    cases main <;> exact hname
  refine h.congr names ?_ ?_ hmain
  · rintro name ⟨f, hf⟩
    rw [hf, get?_compiledFragments hd hf]
  · rintro name ⟨f, hf⟩ f' hf' other hother
    obtain rfl := Option.some.inj ((get?_compiledFragments hd hf).symm.trans hf')
    exact hw _ (mem_of_fragmentIn hf) other hother

/-! ## 5. The two views -/

theorem executable_mem (h : d.executable = .ok main) : main.definition ∈ d.definitions := by
  rw [Document.executable] at h
  cases hf : d.definitions.findSome? Executable.ofDefinition? with
  | none => rw [hf] at h; exact absurd h nofun
  | some e =>
    rw [hf, Except.ok.injEq] at h
    subst h
    obtain ⟨definition, hmem, he⟩ := List.exists_of_findSome?_eq_some hf
    cases definition with
    | operation _ | fragment _ => cases he; exact hmem
    | schema _ | type _ | directive _ => exact absurd he nofun

theorem typenamesAreLeavesIn_of_mem (hd : d.typenamesAreLeaves = true) {definition : Definition}
    (hm : definition ∈ d.definitions) : typenamesAreLeavesIn definition.selections = true :=
  List.all_eq_true.mp hd definition hm

variable {c : Config} {r : Registry} {documents : List Document}

/-- In what is compiled, names of types are leaves. -/
theorem compilation_leavesIn (hl : ∀ d' ∈ d :: documents, d'.typenamesAreLeaves = true)
    (h : (ofDocuments c r documents).compiledDefinitions d = .ok (main, others)) :
    typenamesAreLeavesIn main.selections = true ∧
      ((ofDocuments c r documents).compilation d main others).LeavesIn := by
  obtain ⟨e, -, he, -, htypenames, -⟩ := compiledDefinitions_eq_ok h
  have htable : ∀ {name f}, Table.get? (fragmentTable documents) name = some f →
      typenamesAreLeavesIn f.selections = true := by
    intro name f hf
    obtain ⟨-, d', hd', hmem⟩ := fragmentTable_mem hf
    exact typenamesAreLeavesIn_of_mem (hl d' (List.mem_cons_of_mem _ hd')) hmem
  have hmain : typenamesAreLeavesIn main.selections = true := by
    rw [htypenames, e.selections_withTypenames]
    refine typenamesAreLeavesIn_injectTypenames _ _ _ ?_
    have := typenamesAreLeavesIn_of_mem (hl d List.mem_cons_self) (executable_mem he)
    cases e <;> exact this
  refine ⟨hmain, fun name f hf => ?_⟩
  rcases compiledFragments_source (namedByKey_fragmentTable documents) h hf with
    ⟨-, hown⟩ | ⟨g, hg, rfl | rfl⟩
  · rw [hown] at hmain
    exact hmain
  · exact htable hg
  · exact typenamesAreLeavesIn_injectTypenames _ _ _ (htable hg)

/-- The selections of a definition are made against its root type. -/
theorem leads_rootType {s : Schema} {type : NamedType} (h : main.rootType? s = some type) :
    s.Leads [main.ancestor] (some type) := by
  rw [← h]
  cases main with
  | operation o => exact Schema.leads_operation s o.kind
  | fragment f => exact Schema.leads_fragment s f.condition

/-- **An artifact shows what it was compiled from.** -/
theorem compile_shows (hl : ∀ d' ∈ d :: documents, d'.typenamesAreLeaves = true)
    (h : (ofDocuments c r documents).compile d = .ok a) :
    ∃ main others rows, (ofDocuments c r documents).compiledDefinitions d = .ok (main, others) ∧
      a.raw = printDocument
        ((ofDocuments c r documents).sent (main.definition :: others.map .fragment)) ∧
      ((ofDocuments c r documents).compilation d main others).Rows
        (Table.get? ((ofDocuments c r documents).compiledFragments main others))
        { fragment := none, ancestors := [main.ancestor] } main.selections rows ∧
      Shows a.selection rows := by
  obtain ⟨main, others, type, hdefs, htype, hraw, hsel⟩ := compile_eq_ok h
  obtain ⟨hmain, hleaves⟩ := compilation_leavesIn hl hdefs
  obtain ⟨rows, hrows, hshows⟩ :=
    Compilation.compile_shows hleaves (leads_rootType htype) hmain hsel
  exact ⟨main, others, rows, hdefs, hraw, hrows, hshows⟩

/-- **The selection describes the document that is sent.**  What is printed holds every fragment
that it spreads, and its expansion has one key tree: that of the selection. -/
theorem compile_describes_sent (hl : ∀ d' ∈ d :: documents, d'.typenamesAreLeaves = true)
    (h : (ofDocuments c r documents).compile d = .ok a) :
    ∃ sent os, (ofDocuments c r documents).sentDefinitions d = .ok sent ∧
      a.raw = printDocument sent ∧ SpreadsWithin sent ∧ DocumentExpands sent os ∧
      ∀ t, IsKeyTreeOf os t ↔ t = a.selection.keyTree := by
  obtain ⟨main, others, rows, hdefs, hraw, hrows, hshows⟩ := compile_shows hl h
  have hnodup := compiledDefinitions_nodup (namedByKey_fragmentTable documents) hdefs
  have hwithin := compiledDefinitions_within (namedByKey_fragmentTable documents) hdefs
  have hexpands : DocumentExpands (main.definition :: others.map .fragment) (places rows) :=
    ⟨main, by cases main <;> rfl, expands_fragmentIn hnodup hwithin hrows.expands⟩
  let kept (ds : List Directive) := ds.filter fun d => !(ofDocuments c r documents).isDropped d
  refine ⟨_, _, bind_eq_ok.mpr ⟨_, hdefs, rfl⟩, hraw, hwithin.mapDirectives kept,
    hexpands.mapDirectives kept, fun t => ?_⟩
  have htree : IsKeyTreeOf ((places rows).map (·.mapDirectives kept)) a.selection.keyTree :=
    ⟨Entry.distinctTree_mapTree hshows.distinct, fun p => by
      rw [SelectionTree.keyTree, Entry.keysAt?_mapTree, hshows.keys, keysAt_mapDirectives]⟩
  exact ⟨fun ht => ht.unique htree, fun he => he ▸ htree⟩

end ArtifactContext

/-! ## 6. A query whose fragments overlap -/

namespace Sample

/-- The settings when nothing is set. -/
def config (schema : Schema) : Config :=
  { schema, newSchema := "", paginateDirective := "paginate", listDirective := "list",
    argumentsDirective := "arguments", withDirective := "with", prependDirective := "prepend",
    appendDirective := "append", parentIdDirective := "parentID", whenDirective := "when",
    whenNotDirective := "when_not", defaultKeys := ["id"], types := [], defaultPosition := .last }

/-- Characters, of whom each has a friend. -/
def characters : Schema :=
  { types := [.scalar "String",
      .interface "Character" [] [⟨"name", some [], .named "String"⟩,
        ⟨"friend", some [], .named "Character"⟩],
      .object "Query" [] [⟨"hero", some [], .named "Character"⟩]]
    query := some "Query", mutation := none, subscription := none }

def operation (kind : OperationKind) (name : String) (selections : List Selection) : Document :=
  .ofDefinitions (.ofOperation kind) name name [.operation
    { description := none, kind, name := some name, declarations := [], directives := [],
      selections }]

def fragment (name condition : String) (selections : List Selection) : Document :=
  .ofDefinitions .fragment name name [.fragment
    { description := none, name, condition, directives := [], selections }]

/-- The hero is selected twice, and `Names` is reached twice, once through `Friends`. -/
def hero : Document :=
  operation .query "Hero" [
    plainField "hero" [plainField "name" [], .spread "Friends" []],
    .inline (some "Query") [] [
      plainField "hero" [.spread "Names" [], plainField "friend" [plainField "name" []]]]]

def friends : List Document :=
  [hero,
    fragment "Friends" "Character" [
      plainField "friend" [plainField "name" [], .spread "Names" []]],
    fragment "Names" "Character" [
      plainField "name" [],
      plainField "friend" [plainField "friend" [plainField "name" []]]]]

end Sample

open Sample in
theorem hero_described :
    (∀ d ∈ hero :: friends, d.typenamesAreLeaves = true) ∧
    ∃ a sent os, (ArtifactContext.ofDocuments (config characters) [] friends).compile hero = .ok a ∧
      (ArtifactContext.ofDocuments (config characters) [] friends).sentDefinitions hero = .ok sent ∧
      a.raw = printDocument sent ∧ SpreadsWithin sent ∧ DocumentExpands sent os ∧
      ∀ t, IsKeyTreeOf os t ↔ t = a.selection.keyTree := by
  have hl : ∀ d ∈ hero :: friends, d.typenamesAreLeaves = true := by decide
  have hok : ((ArtifactContext.ofDocuments (config characters) [] friends).compile hero).isOk
      = true := by decide +kernel
  cases h : (ArtifactContext.ofDocuments (config characters) [] friends).compile hero with
  | error e => rw [h] at hok; exact absurd hok nofun
  | ok a =>
    obtain ⟨sent, os, hdescribed⟩ := ArtifactContext.compile_describes_sent hl h
    exact ⟨hl, a, sent, os, rfl, hdescribed⟩

end QueryCompiler
