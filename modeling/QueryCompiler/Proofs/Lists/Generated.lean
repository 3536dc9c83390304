import QueryCompiler.Lists.Documents
import QueryCompiler.Proofs.Artifact.Reference
import QueryCompiler.Proofs.Lists.Marks
import QueryCompiler.Proofs.Outcome
/-
# Generated fragments are found and not marked

The document that is generated for lists comes last, so its fragments count before all others of
their names (`fragmentTable_generated`); and its names are just those that the registry reads as
list operations.  What its fragments select was captured from fields before these were marked, or
is the identity of a record: all marks in it are those that documents have of their own.
-/
namespace QueryCompiler

variable {c : Config} {P : Argument → Prop} {r : Registry}

/-! ## 1. The fragments of a list -/

theorem isSome_operation?_iff {fragment : String} :
    (r.operation? c fragment).isSome = true ↔ ∃ name ∈ Table.keys r,
      fragment = c.insertFragment name ∨ fragment = c.toggleFragment name ∨
        fragment = c.removeFragment name := by
  rw [Registry.operation?, List.findSome?_isSome_iff]
  refine exists_congr fun name => and_congr_right fun _ => ?_
  split
  · rename_i h
    exact iff_of_true rfl (.inl h)
  · rename_i h₁
    split
    · rename_i h
      exact iff_of_true rfl (.inr (.inl h))
    · rename_i h₂
      split
      · rename_i h
        exact iff_of_true rfl (.inr (.inr h))
      · rename_i h₃
        exact iff_of_false nofun fun h => h.elim h₁ (·.elim h₂ h₃)

/-- What is read from a name is what the name was made of. -/
theorem eq_of_generated {fragment name : String} {found : String × ListAction}
    (h : (if fragment = c.insertFragment name then some (name, ListAction.insert)
      else if fragment = c.toggleFragment name then some (name, .toggle)
      else if fragment = c.removeFragment name then some (name, .remove) else none) = some found) :
    fragment = found.1 ++ ("_" ++ found.2.name) := by
  split at h
  · rename_i hf
    obtain rfl := Option.some.inj h
    exact hf
  · split at h
    · rename_i hf
      obtain rfl := Option.some.inj h
      exact hf
    · split at h
      · rename_i hf
        obtain rfl := Option.some.inj h
        exact hf
      · exact absurd h nofun

theorem eq_of_operation? {fragment : String} {found : String × ListAction}
    (h : r.operation? c fragment = some found) :
    fragment = found.1 ++ ("_" ++ found.2.name) := by
  obtain ⟨name, -, hname⟩ := List.exists_of_findSome?_eq_some h
  exact eq_of_generated hname

theorem marksIn_idField : MarksIn c P [idField] :=
  everyIn_plainField (fun _ _ _ => marksIn_of_no_directives rfl) (everyIn_nil _)

theorem fragmentsOf_append (ds others : List Definition) :
    fragmentsOf (ds ++ others) = fragmentsOf ds ++ fragmentsOf others := List.filterMap_append

/-- The names of the fragments of a list. -/
def Config.generatedNames (c : Config) (list : String) : List String :=
  [c.insertFragment list, c.toggleFragment list, c.removeFragment list]

/-- A list has one fragment for each operation. -/
theorem names_listFragments {name : String} {l : ListDefinition} {definitions : List Definition}
    (h : listFragments c name l = .ok definitions) :
    (fragmentsOf definitions).map (·.name) = c.generatedNames name := by
  rw [listFragments] at h
  split at h
  · exact absurd h nofun
  · split at h
    · exact absurd h nofun
    · obtain rfl := Except.ok.inj h
      rfl

/-- The fragments of a list have no marks but those of its members. -/
theorem marks_listFragments {name : String} {l : ListDefinition} {definitions : List Definition}
    (hl : MarksIn c P l.selections) (h : listFragments c name l = .ok definitions) :
    ∀ f ∈ fragmentsOf definitions, MarksIn c P f.selections := by
  rw [listFragments] at h
  split at h
  · exact absurd h nofun
  · split at h
    · exact absurd h nofun
    · obtain rfl := Except.ok.inj h
      have hselections : MarksIn c P
          (if selectsId l.selections then l.selections else l.selections ++ [idField]) := by
        split
        · exact hl
        · exact marksIn_append.mpr ⟨hl, marksIn_idField⟩
      exact List.forall_mem_cons.mpr ⟨hselections, List.forall_mem_cons.mpr
        ⟨marksIn_append.mpr ⟨hselections, marksIn_idField⟩,
          List.forall_mem_singleton.mpr marksIn_idField⟩⟩

/-! ## 2. The fragments of a registry -/

/-- The directives that delete records are no fragments. -/
theorem fragmentsOf_deleteDefinitions (types : List String) :
    fragmentsOf (types.map (deleteDefinition c)) = [] := by
  rw [fragmentsOf, List.filterMap_map, List.filterMap_eq_nil_iff]
  exact fun _ _ => rfl

/-- The fragments among generated definitions are those of the lists, one after the other. -/
theorem fragmentsOf_listDefinitions {definitions : List Definition}
    (h : listDefinitions c r = .ok definitions) :
    ∃ fragments, r.mapM (fun row => listFragments c row.1 row.2) = .ok fragments ∧
      fragmentsOf definitions = fragments.flatMap fragmentsOf := by
  simp only [listDefinitions, bind_eq_ok, pure_eq_ok] at h
  obtain ⟨fragments, hfragments, rfl⟩ := h
  refine ⟨fragments, hfragments, ?_⟩
  rw [fragmentsOf_append, fragmentsOf_deleteDefinitions, List.append_nil]
  exact List.filterMap_flatten

theorem names_listDefinitions {definitions : List Definition}
    (h : listDefinitions c r = .ok definitions) :
    (fragmentsOf definitions).map (·.name) = (Table.keys r).flatMap c.generatedNames := by
  obtain ⟨fragments, hfragments, hof⟩ := fragmentsOf_listDefinitions h
  have hall := mapM_eq_ok.mp hfragments
  rw [hof]
  clear h hfragments hof
  induction hall with
  | nil => rfl
  | cons hrow _ ih =>
    rw [List.flatMap_cons, List.map_append, names_listFragments hrow, ih]
    rfl

theorem mem_names_listDefinitions {definitions : List Definition}
    (h : listDefinitions c r = .ok definitions) (name : String) :
    name ∈ (fragmentsOf definitions).map (·.name) ↔ (r.operation? c name).isSome = true := by
  simp only [names_listDefinitions h, isSome_operation?_iff, List.mem_flatMap,
    Config.generatedNames, List.mem_cons, List.not_mem_nil, or_false]

theorem marks_listDefinitions {definitions : List Definition} (hr : RegistryMarks c P r)
    (h : listDefinitions c r = .ok definitions) :
    ∀ f ∈ fragmentsOf definitions, MarksIn c P f.selections := by
  obtain ⟨fragments, hfragments, hof⟩ := fragmentsOf_listDefinitions h
  intro f hf
  rw [hof] at hf
  obtain ⟨ds, hds, hf⟩ := List.mem_flatMap.mp hf
  obtain ⟨row, hrow, hlist⟩ := exists_of_forall₂ (mapM_eq_ok.mp hfragments) hds
  exact marks_listFragments (hr row hrow) hlist f hf

/-! ## 3. The list pass -/

/-- The documents that are generated for the lists of a registry: one, if there are any. -/
def Generates (c : Config) (r : Registry) (new : List Document) : Prop :=
  (r = [] ∧ new = []) ∨
    ∃ definitions, listDefinitions c r = .ok definitions ∧ new = [generatedDocument definitions]

namespace Generates

variable {new : List Document}

/-- All that the new documents define was generated for the lists. -/
theorem definitions (h : Generates c r new) :
    listDefinitions c r = .ok (new.flatMap (·.definitions)) := by
  rcases h with ⟨rfl, rfl⟩ | ⟨definitions, hdefs, rfl⟩
  · rfl
  · rw [List.flatMap_singleton]
    exact hdefs

/-- No artifact is wanted of a new document. -/
theorem generate_eq_false (h : Generates c r new) : ∀ d ∈ new, d.generate = false := by
  rcases h with ⟨-, rfl⟩ | ⟨_, -, rfl⟩
  · exact fun _ hd => absurd hd List.not_mem_nil
  · exact List.forall_mem_singleton.mpr rfl

end Generates

/-- What comes of a registry: documents that are generated, or a list without its fragments. -/
def generatedDocuments (c : Config) (r : Registry) : Except Error (List Document) :=
  if r = [] then .ok [] else (listDefinitions c r).map fun definitions =>
    [generatedDocument definitions]

theorem generates_of_eq_ok {new : List Document} (h : generatedDocuments c r = .ok new) :
    Generates c r new := by
  rw [generatedDocuments] at h
  split at h
  · exact .inl ⟨‹_›, (Except.ok.inj h).symm⟩
  · obtain ⟨definitions, hdefinitions, rfl⟩ := map_eq_ok.mp h
    exact .inr ⟨definitions, hdefinitions, rfl⟩

/-- **What a list pass comes to** after all documents have been visited. -/
theorem addListFragments_eq {documents tagged : List Document} {st : TagState}
    (h : tagDocuments c { registry := r, errors := [], changed := false } documents
      = (tagged, st, .ok ())) :
    (addListFragments c r documents).result
        = (if st.errors = [] then generatedDocuments c st.registry
          else .error (.naming st.errors)) ∧
      (addListFragments c r documents).registry = st.registry ∧
      (addListFragments c r documents).documents
        = tagged ++ (addListFragments c r documents).result.toOption.getD [] := by
  have hnone : tagged = tagged ++ [] := (List.append_nil _).symm
  rw [addListFragments, h]
  dsimp only
  by_cases herrors : st.errors = []
  · rw [if_pos herrors, herrors, if_neg (by decide), generatedDocuments]
    by_cases hempty : st.registry = []
    · rw [if_pos hempty, if_pos (List.isEmpty_iff.mpr hempty)]
      exact ⟨rfl, rfl, hnone⟩
    · rw [if_neg hempty, if_neg (mt List.isEmpty_iff.mp hempty)]
      cases listDefinitions c st.registry with
      | error e => exact ⟨rfl, rfl, hnone⟩
      | ok definitions => exact ⟨rfl, rfl, rfl⟩
  · rw [if_neg herrors, if_pos (by simpa using herrors)]
    exact ⟨rfl, rfl, hnone⟩

/-- What a list pass that succeeds has done. -/
theorem addListFragments_eq_ok {documents new : List Document}
    (h : (addListFragments c r documents).result = .ok new) :
    ∃ tagged st, tagDocuments c { registry := r, errors := [], changed := false } documents
        = (tagged, st, .ok ()) ∧ st.errors = [] ∧
      (addListFragments c r documents).registry = st.registry ∧
      (addListFragments c r documents).documents = tagged ++ new ∧
      Generates c st.registry new := by
  rcases htag : tagDocuments c { registry := r, errors := [], changed := false } documents
    with ⟨tagged, st, visited⟩
  cases visited with
  | error e =>
    rw [addListFragments, htag] at h
    exact absurd h nofun
  | ok u =>
    obtain ⟨hresult, hregistry, hdocuments⟩ := addListFragments_eq htag
    rw [h] at hresult hdocuments
    split at hresult
    · rename_i herrors
      exact ⟨tagged, st, rfl, herrors, hregistry, hdocuments, generates_of_eq_ok hresult.symm⟩
    · exact absurd hresult.symm error_ne_ok

/-- The fragments of the document that is generated, if there are any lists. -/
theorem fragmentsOf_generated {new : List Document} (hr : RegistryMarks c P r)
    (hnew : Generates c r new) :
    (∀ name, name ∈ (fragmentsOf (new.flatMap (·.definitions))).map (·.name)
        ↔ (r.operation? c name).isSome = true) ∧
      ∀ f ∈ fragmentsOf (new.flatMap (·.definitions)), MarksIn c P f.selections :=
  ⟨mem_names_listDefinitions hnew.definitions, marks_listDefinitions hr hnew.definitions⟩

/-- **The fragments that documents have after the pass**: under the name of an operation a generated
one, with no marks but those of members, and under any other name one of the documents that have
been visited. -/
theorem fragmentTable_generated {tagged new : List Document}
    (hr : RegistryMarks c P r) (hnew : Generates c r new)
    {name : String} {f : Fragment} (h : Table.get? (fragmentTable (tagged ++ new)) name = some f) :
    if (r.operation? c name).isSome then MarksIn c P f.selections
    else ∃ d ∈ tagged, Executable.fragment f ∈ d.executables := by
  have hnames := fragmentsOf_generated hr hnew
  have hfound : ∀ g, Table.get? (fragmentTable new) name = some g →
      g.name = name ∧ g ∈ fragmentsOf (new.flatMap (·.definitions)) := by
    intro g hg
    obtain ⟨hname, d, hd, hmem⟩ := fragmentTable_mem hg
    exact ⟨hname, List.mem_filterMap.mpr ⟨_, List.mem_flatMap.mpr ⟨d, hd, hmem⟩, rfl⟩⟩
  rw [get?_fragmentTable_append] at h
  split
  · rename_i hop
    obtain ⟨g, hg, rfl⟩ := List.mem_map.mp ((hnames.1 name).mpr hop)
    obtain ⟨g', hg'⟩ := Option.isSome_iff_exists.mp (isSome_fragmentTable hg)
    rw [hg', Option.some_or, Option.some.injEq] at h
    exact h ▸ hnames.2 g' (hfound g' hg').2
  · rename_i hop
    rcases Option.or_eq_some_iff.mp h with hg | ⟨-, hg⟩
    · obtain ⟨rfl, hmem⟩ := hfound f hg
      exact absurd ((hnames.1 f.name).mp (List.mem_map.mpr ⟨f, hmem, rfl⟩)) hop
    · obtain ⟨-, d, hd, hmem⟩ := fragmentTable_mem hg
      exact ⟨d, hd, List.mem_filterMap.mpr ⟨_, hmem, rfl⟩⟩

end QueryCompiler
